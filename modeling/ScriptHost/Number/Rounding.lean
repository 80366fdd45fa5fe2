import ScriptHost.Number.Power

/-! # Rounding to a binary format

A positive rational is rounded to the nearest number of a binary floating point format, a tie
going to the even significand. The result is the magnitude part of the encoding: the exponent
field above the fraction bits, without a sign.
-/

namespace ScriptHost

/-- The quotient of two naturals rounded to the nearest natural, a half going to the even
    neighbour. -/
def roundDiv (num den : Nat) : Nat :=
  let q := num / den
  let r := num % den
  if 2 * r < den then q
  else if den < 2 * r then q + 1
  else q + q % 2

/-- The exponent of the largest power of two that is at most `num / den`. -/
def floorLog2 (num den : Nat) : Int :=
  let guess : Int := (num.log2 : Int) - (den.log2 : Int)
  if den * 2 ^ guess.toNat ≤ num * 2 ^ (-guess).toNat then guess else guess - 1

/-- A binary floating point format with gradual underflow. -/
structure BinaryFormat where
  /-- Bits of the significand that are stored. -/
  fractionBits : Nat
  /-- Bits of the exponent field. -/
  exponentBits : Nat
  deriving Repr, DecidableEq

namespace BinaryFormat

def double : BinaryFormat := ⟨52, 11⟩

def single : BinaryFormat := ⟨23, 8⟩

variable (f : BinaryFormat)

/-- Exponent of the least significant bit of the smallest numbers. -/
def minScale : Int := 2 - 2 ^ (f.exponentBits - 1) - f.fractionBits

/-- The largest value of the exponent field; it marks infinities and NaNs. -/
def topExponent : Nat := 2 ^ f.exponentBits - 1

/-- The encoding of positive infinity. -/
def infinity : Nat := f.topExponent * 2 ^ f.fractionBits

/-- The encoding of the number nearest to `num / den`; what is too large becomes infinity. -/
def encode (num den : Nat) : Nat :=
  if num = 0 then 0 else
  let scale := max (floorLog2 num den - f.fractionBits) f.minScale
  let significand := roundDiv (num * 2 ^ (-scale).toNat) (den * 2 ^ scale.toNat)
  min (significand + (scale - f.minScale).toNat * 2 ^ f.fractionBits) f.infinity

/-- The significand of a finite magnitude; it counts units of `2 ^ f.scale bits`. -/
def significand (bits : Nat) : Nat :=
  let field := bits / 2 ^ f.fractionBits
  let fraction := bits % 2 ^ f.fractionBits
  if field = 0 then fraction else fraction + 2 ^ f.fractionBits

/-- The exponent of the unit that the significand of a finite magnitude counts. -/
def scale (bits : Nat) : Int :=
  f.minScale + (bits / 2 ^ f.fractionBits - 1 : Nat)

end BinaryFormat

end ScriptHost
