import ScriptHost.Number.Double

/-! # Shortest decimals

The shortest decimal that reads back as a given double. Among decimals of that length the nearest
one is taken, and the upper one of two that are equally near.
-/

namespace ScriptHost

/-- The number `digits * 10 ^ exponent`. -/
structure Decimal where
  digits : Nat
  exponent : Int
  deriving Repr, DecidableEq

namespace Decimal

/-- The power of ten of the leading digit of a positive rational. -/
def leadingExponent (num den : Nat) : Int :=
  let guess := floorLog2 num den * 30103 / 100000
  let next := guess + 1
  if den * 10 ^ next.toNat ≤ num * 10 ^ (-next).toNat then next else guess

/-- The positive rationals that round to one double: from `low / den` to `high / den` around
    `value / den`, with the ends if `closed`. -/
structure Interval where
  low : Nat
  value : Nat
  high : Nat
  den : Nat
  closed : Bool

/-- The interval around a finite double that is not zero. Below a power of two the gap is half
    as wide. -/
def Interval.of (d : Double) : Interval :=
  let m := d.significand
  let unit := 2 ^ d.scale.toNat
  let below := if m = 2 ^ 52 then 1 else 2
  { low := (4 * m - below) * unit
    value := 4 * m * unit
    high := (4 * m + 2) * unit
    den := 4 * 2 ^ (-d.scale).toNat
    closed := m % 2 = 0 }

/-- Whether `num / den` lies in the interval; both are scaled alike. -/
def Interval.contains (i : Interval) (num den : Nat) : Bool :=
  if i.closed then i.low * den ≤ num * i.den && num * i.den ≤ i.high * den
  else i.low * den < num * i.den && num * i.den < i.high * den

/-- The multiple of `10 ^ exponent` in the interval that is nearest to its value. -/
def Interval.onGrid? (i : Interval) (exponent : Int) : Option Nat :=
  let up := 10 ^ exponent.toNat
  let down := 10 ^ (-exponent).toNat
  let floor := i.value * down / (i.den * up)
  let low := i.contains (floor * up) down
  let high := i.contains ((floor + 1) * up) down
  if low && high then
    if 2 * (i.value * down) < (2 * floor + 1) * (i.den * up) then some floor
    else some (floor + 1)
  else if high then some (floor + 1)
  else if low then some floor
  else none

/-- Tries coarse grids before fine ones. -/
def Interval.search (i : Interval) (leading : Int) : List Nat → Decimal
  | [] => ⟨0, 0⟩
  | places :: rest =>
      match i.onGrid? (leading - places) with
      | some digits => ⟨digits, leading - places⟩
      | none => i.search leading rest

/-- Drops zeros at the end of the digits. -/
def dropZeros (digits : Nat) (exponent : Int) : Nat → Decimal
  | 0 => ⟨digits, exponent⟩
  | fuel + 1 =>
      if digits ≠ 0 && digits % 10 = 0 then dropZeros (digits / 10) (exponent + 1) fuel
      else ⟨digits, exponent⟩

/-- The shortest decimal for the magnitude of a finite double. Seventeen digits always do. -/
def shortest (d : Double) : Decimal :=
  if d.isZero then ⟨0, 0⟩ else
  let i := Interval.of d
  let found := i.search (leadingExponent i.value i.den) (List.range 17)
  dropZeros found.digits found.exponent 17

end Decimal

end ScriptHost
