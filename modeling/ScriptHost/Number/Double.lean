import ScriptHost.Number.Rounding

/-! # Doubles

A double is known by its 64 bits, so that two of them can be told apart even where they compare
equal. Comparison, conversion from and to integers, and single precision are computed on the bits
in exact arithmetic.
-/

namespace ScriptHost

/-- A double precision number. -/
structure Double where
  /-- The encoding: sign, exponent field, fraction. -/
  bits : UInt64
  deriving DecidableEq, Repr, Inhabited, Hashable

namespace Double

/-- The one NaN that values carry. -/
def canonicalNaN : Double := ⟨0x7FF8000000000000⟩

/-- The encoding without its sign. -/
def magnitude (d : Double) : Nat := d.bits.toNat % 2 ^ 63

def isNegative (d : Double) : Bool := 2 ^ 63 ≤ d.bits.toNat

def isNaN (d : Double) : Bool := BinaryFormat.double.infinity < d.magnitude

def isInfinite (d : Double) : Bool := d.magnitude == BinaryFormat.double.infinity

def isFinite (d : Double) : Bool := d.magnitude < BinaryFormat.double.infinity

def isZero (d : Double) : Bool := d.magnitude == 0

/-- Puts a sign in front of a magnitude. -/
def ofMagnitude (negative : Bool) (magnitude : Nat) : Double :=
  ⟨UInt64.ofNat (magnitude % 2 ^ 63 + if negative then 2 ^ 63 else 0)⟩

/-- Every NaN becomes the canonical one. -/
def canonical (d : Double) : Double := if d.isNaN then canonicalNaN else d

/-- Numeric equality: NaN differs from everything, the two zeros are equal. -/
def sameNumber (a b : Double) : Bool :=
  !a.isNaN && !b.isNaN && (a.bits == b.bits || (a.isZero && b.isZero))

/-- A finite double is `±significand * 2 ^ scale`. -/
def significand (d : Double) : Nat := BinaryFormat.double.significand d.magnitude

def scale (d : Double) : Int := BinaryFormat.double.scale d.magnitude

/-- The double nearest to `±num / den`. -/
def ofRatio (negative : Bool) (num den : Nat) : Double :=
  ofMagnitude negative (BinaryFormat.double.encode num den)

def ofInt (i : Int) : Double := ofRatio (i < 0) i.natAbs 1

/-- The integer that a double denotes exactly, if it denotes one. -/
def toInt? (d : Double) : Option Int :=
  if d.isFinite then
    let num := d.significand * 2 ^ d.scale.toNat
    let den := 2 ^ (-d.scale).toNat
    if num % den = 0 then
      some (if d.isNegative then -(num / den : Nat) else (num / den : Nat))
    else none
  else none

/-- The integer that a double denotes, if it lies in the signed 64-bit range. -/
def toInt64? (d : Double) : Option Int :=
  d.toInt?.filter fun i => -2 ^ 63 ≤ i && i < 2 ^ 63

/-- The bits of the single nearest to a double. A NaN stays a quiet NaN. -/
def toSingle (d : Double) : UInt32 :=
  let sign := if d.isNegative then 2 ^ 31 else 0
  let magnitude :=
    if d.isNaN then
      BinaryFormat.single.infinity + 2 ^ 22 + d.magnitude / 2 ^ 29 % 2 ^ 22
    else if d.isInfinite then BinaryFormat.single.infinity
    else
      BinaryFormat.single.encode (d.significand * 2 ^ d.scale.toNat) (2 ^ (-d.scale).toNat)
  UInt32.ofNat (magnitude + sign)

/-- The double that a single denotes. A NaN becomes a quiet NaN. -/
def ofSingle (single : UInt32) : Double :=
  let negative := 2 ^ 31 ≤ single.toNat
  let magnitude := single.toNat % 2 ^ 31
  let f := BinaryFormat.single
  if f.infinity < magnitude then
    ofMagnitude negative
      (BinaryFormat.double.infinity + 2 ^ 51 + magnitude % 2 ^ 22 * 2 ^ 29)
  else if magnitude = f.infinity then ofMagnitude negative BinaryFormat.double.infinity
  else
    let scale := f.scale magnitude
    ofRatio negative (f.significand magnitude * 2 ^ scale.toNat) (2 ^ (-scale).toNat)

end Double

end ScriptHost
