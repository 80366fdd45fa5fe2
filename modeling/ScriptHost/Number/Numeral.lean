import ScriptHost.Value
import ScriptHost.Text.Utf8

/-! # Numerals

The number that a string denotes, if it denotes one: a hexadecimal or decimal integer of 64 bits,
else a decimal fraction, infinity or NaN. Blanks around it are ignored.
-/

namespace ScriptHost

/-- A number read from text. -/
inductive Numeral where
  | integer (i : Int)
  | float (d : Double)
  deriving DecidableEq, Repr

namespace Numeral

/-- The white space of Unicode. -/
def isBlank (c : Char) : Bool :=
  let n := c.toNat
  (9 ≤ n && n ≤ 13) || n == 0x20 || n == 0x85 || n == 0xA0 || n == 0x1680
    || (0x2000 ≤ n && n ≤ 0x200A) || n == 0x2028 || n == 0x2029 || n == 0x202F || n == 0x205F
    || n == 0x3000

/-- Drops blanks at both ends. -/
def strip (cs : List Char) : List Char :=
  ((cs.dropWhile isBlank).reverse.dropWhile isBlank).reverse

/-- The value of a digit in a base up to 36. -/
def digit? (base : Nat) (c : Char) : Option Nat :=
  let n :=
    if c.isDigit then c.toNat - '0'.toNat
    else if c.isLower then c.toNat - 'a'.toNat + 10
    else if c.isUpper then c.toNat - 'A'.toNat + 10
    else base
  if n < base then some n else none

/-- The natural that digits in a base denote. The list is halved `depth` times before digits are
    taken in one by one, which keeps products of long numerals few; the result does not depend on
    it. -/
def ofDigits (base : Nat) : Nat → List Nat → Nat
  | 0, digits => digits.foldl (fun n d => n * base + d) 0
  | depth + 1, digits =>
      let (high, low) := digits.splitAt (digits.length / 2)
      ofDigits base depth high * base ^ low.length + ofDigits base depth low

theorem foldl_digits (base n : Nat) (digits : List Nat) :
    digits.foldl (fun n d => n * base + d) n
      = n * base ^ digits.length + digits.foldl (fun n d => n * base + d) 0 := by
  induction digits generalizing n with
  | nil => simp
  | cons d digits ih =>
    simp only [List.foldl_cons, List.length_cons]
    rw [ih (n * base + d), ih (0 * base + d)]
    grind

theorem ofDigits_eq_foldl (base depth : Nat) (digits : List Nat) :
    ofDigits base depth digits = digits.foldl (fun n d => n * base + d) 0 := by
  induction depth generalizing digits with
  | zero => rfl
  | succ depth ih =>
    simp only [ofDigits, List.splitAt_eq, ih]
    rw [← foldl_digits, ← List.foldl_append, List.take_append_drop]

/-- The natural that digits denote; there must be at least one digit and nothing else. -/
def natural? (base : Nat) (cs : List Char) : Option Nat :=
  if cs.isEmpty then none
  else (cs.mapM (digit? base)).map fun digits =>
    ofDigits base (digits.length / 64).log2 digits

/-- Splits off a sign; true means negative. -/
def sign : List Char → Bool × List Char
  | '-' :: cs => (true, cs)
  | '+' :: cs => (false, cs)
  | cs => (false, cs)

/-- Hexadecimal digits of at most 64 bits, read as a signed integer. -/
def hexadecimal? (cs : List Char) : Option Int :=
  let digits := match cs with
    | '+' :: rest => rest
    | cs => cs
  (natural? 16 digits).bind fun n => if n < 2 ^ 64 then some (wrapInt64 n) else none

/-- A decimal integer in the signed 64-bit range. -/
def decimal? (cs : List Char) : Option Int :=
  let (negative, digits) := sign cs
  (natural? 10 digits).bind fun n =>
    let i : Int := if negative then -n else n
    if -2 ^ 63 ≤ i ∧ i < 2 ^ 63 then some i else none

/-- The double nearest to `±digits * 10 ^ exponent`, where `digits` has `count` digits in base
    ten. Exponents far out of range are decided by the place of the leading digit alone. -/
def scaled (negative : Bool) (digits count : Nat) (exponent : Int) : Double :=
  if digits = 0 then Double.ofMagnitude negative 0
  else
    let leading := (count : Int) - 1 + exponent
    if 400 < leading then Double.ofMagnitude negative BinaryFormat.double.infinity
    else if leading < -400 then Double.ofMagnitude negative 0
    else Double.ofRatio negative (digits * 10 ^ exponent.toNat) (10 ^ (-exponent).toNat)

/-- The size of a written exponent. Its digits count while what they have given so far is below
    65536; those after that must still be digits, but add nothing. -/
def exponent? (cs : List Char) : Option Nat :=
  if cs.isEmpty then none
  else cs.foldlM (fun n c => (digit? 10 c).map fun d => if n < 0x10000 then n * 10 + d else n) 0

/-- Digits with an optional point and an optional exponent; there must be a digit beside the
    point. -/
def fraction? (negative : Bool) (cs : List Char) : Option Double :=
  let whole := cs.takeWhile Char.isDigit
  let afterWhole := cs.dropWhile Char.isDigit
  let (places, afterPlaces) := match afterWhole with
    | '.' :: rest => (rest.takeWhile Char.isDigit, rest.dropWhile Char.isDigit)
    | rest => ([], rest)
  let written : Option Int := match afterPlaces with
    | [] => some 0
    | c :: rest =>
        if c = 'e' || c = 'E' then
          let (below, digits) := sign rest
          (exponent? digits).map fun n => if below then -(n : Int) else n
        else none
  match natural? 10 (whole ++ places), written with
  | some digits, some exponent =>
      let count := ((whole ++ places).dropWhile (· = '0')).length
      some (scaled negative digits count (exponent - places.length))
  | _, _ => none

/-- A decimal fraction, or a name for infinity or NaN in any case of letters. -/
def float? (cs : List Char) : Option Double :=
  let (negative, rest) := sign cs
  match String.ofList (rest.map Char.toLower) with
  | "inf" | "infinity" => some (Double.ofMagnitude negative BinaryFormat.double.infinity)
  | "nan" => some (Double.ofMagnitude negative Double.canonicalNaN.magnitude)
  | _ => fraction? negative rest

def ofChars? (text : List Char) : Option Numeral :=
  match strip text with
  | '0' :: 'x' :: digits | '0' :: 'X' :: digits => (hexadecimal? digits).map .integer
  | cs =>
      match decimal? cs with
      | some i => some (.integer i)
      | none => (float? cs).map .float

/-- The number that well-formed bytes denote. -/
def ofBytes? (bytes : Bytes) : Option Numeral :=
  (Utf8.decode? bytes).bind fun text => ofChars? text.toList

end Numeral

end ScriptHost
