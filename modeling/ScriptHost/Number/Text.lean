import ScriptHost.Number.Shortest

/-! # Number text

The two ways a double is written. `Double.plain` is positional whatever the magnitude;
`Double.render` is what scripts see: very large and very small numbers have an exponent, integral
ones keep a trailing `.0`.
-/

namespace ScriptHost

namespace Decimal

/-- Digits with the point in place and no exponent. -/
def positional (d : Decimal) : String :=
  let text := d.digits.repr
  if 0 ≤ d.exponent then text ++ String.ofList (List.replicate d.exponent.toNat '0')
  else
    let places := (-d.exponent).toNat
    let digits := text.toList
    if digits.length ≤ places then
      "0." ++ String.ofList (List.replicate (places - digits.length) '0') ++ text
    else
      let whole := digits.length - places
      String.ofList (digits.take whole) ++ "." ++ String.ofList (digits.drop whole)

/-- One digit before the point and the power of ten after an `e`. -/
def scientific (d : Decimal) : String :=
  let digits := d.digits.repr.toList
  let exponent := d.exponent + (digits.length - 1 : Nat)
  let exponentText := (if exponent < 0 then "-" else "") ++ exponent.natAbs.repr
  String.ofList (digits.take 1)
    ++ (if digits.length ≤ 1 then "" else "." ++ String.ofList (digits.drop 1))
    ++ "e" ++ exponentText

end Decimal

namespace Double

/-- Positional text; integral numbers carry no point. -/
def plain (d : Double) : String :=
  if d.isNaN then "NaN"
  else
    let sign := if d.isNegative then "-" else ""
    if d.isInfinite then sign ++ "inf" else sign ++ (Decimal.shortest d).positional

/-- From this magnitude on an exponent is written: 10^16. -/
def exponentFrom : Double := ofInt (10 ^ 16)

/-- Below this magnitude an exponent is written: 10^-4. -/
def exponentBelow : Double := ofRatio false 1 (10 ^ 4)

/-- Script text: `nan` and `inf` with their signs, an exponent from 10^16 up and below 10^-4, and
    `.0` after other integral numbers. -/
def render (d : Double) : String :=
  let sign := if d.isNegative then "-" else ""
  if d.isNaN then sign ++ "nan"
  else if d.isInfinite then sign ++ "inf"
  else
    let shortest := Decimal.shortest d
    if exponentFrom.magnitude ≤ d.magnitude
        || (d.magnitude < exponentBelow.magnitude && !d.isZero) then
      sign ++ shortest.scientific
    else if d.toInt?.isSome then sign ++ shortest.positional ++ ".0"
    else sign ++ shortest.positional

end Double

end ScriptHost
