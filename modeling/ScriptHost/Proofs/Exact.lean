import Mathlib.Data.Rat.Defs
import Mathlib.Order.Monotone.Basic
import ScriptHost.Value

/-! # The numbers of doubles

A finite double denotes a number exactly, a fraction whose denominator is a power of two. All of them are
whole multiples of the smallest one, and the multiples grow with the encoding, so only the two zeros denote
the same number. The double is converted to an integer just where its number is that integer.
-/

namespace ScriptHost.Double

variable {a b d : Double} {q : Rat} {i : Int} {n : Nat}

/-- A natural number under a sign. -/
def signed (negative : Bool) (n : Nat) : Int := if negative then -n else n

def numerator (d : Double) : Int := signed d.isNegative (d.significand * 2 ^ d.scale.toNat)

def denominator (d : Double) : Nat := 2 ^ (-d.scale).toNat

/-- The number that a finite double denotes: `±significand * 2 ^ scale`. -/
def number? (d : Double) : Option Rat :=
  if d.isFinite then some (mkRat d.numerator d.denominator) else none

theorem number?_eq_some : d.number? = some q ↔ d.isFinite = true ∧ mkRat d.numerator d.denominator = q := by
  unfold number?
  split <;> simp_all

theorem denominator_ne_zero (d : Double) : d.denominator ≠ 0 := Nat.ne_of_gt (Nat.two_pow_pos _)

/-! ## Multiples of the smallest double -/

/-- The denominator of the smallest positive double. -/
def smallest : Nat := 2 ^ (-BinaryFormat.double.minScale).toNat

/-- How often the smallest positive double goes into that of a magnitude. -/
def units (n : Nat) : Nat := BinaryFormat.double.significand n * 2 ^ (n / 2 ^ 52 - 1)

theorem significand_double (n : Nat) : BinaryFormat.double.significand n =
    if n / 2 ^ 52 = 0 then n % 2 ^ 52 else n % 2 ^ 52 + 2 ^ 52 := rfl

/-- The next magnitude has a larger fraction or, after a carry, a larger exponent. -/
theorem units_lt_succ (n : Nat) : units n < units (n + 1) := by
  unfold units
  rw [significand_double, significand_double]
  by_cases hcarry : n % 2 ^ 52 + 1 = 2 ^ 52
  · have hfield : (n + 1) / 2 ^ 52 = n / 2 ^ 52 + 1 := by omega
    have hfraction : (n + 1) % 2 ^ 52 = 0 := by omega
    rw [hfield, hfraction, if_neg (Nat.succ_ne_zero _), Nat.zero_add, Nat.add_sub_cancel]
    by_cases hzero : n / 2 ^ 52 = 0
    · rw [if_pos hzero, hzero]
      omega
    · rw [if_neg hzero]
      obtain ⟨e, he⟩ := Nat.exists_eq_succ_of_ne_zero hzero
      rw [he, Nat.succ_sub_one, Nat.pow_succ]
      have hpos := Nat.two_pow_pos e
      calc (n % 2 ^ 52 + 2 ^ 52) * 2 ^ e < (2 ^ 52 * 2) * 2 ^ e := Nat.mul_lt_mul_of_pos_right (by omega) hpos
        _ = 2 ^ 52 * (2 ^ e * 2) := by rw [Nat.mul_assoc, Nat.mul_comm 2]
  · have hfield : (n + 1) / 2 ^ 52 = n / 2 ^ 52 := by omega
    have hfraction : (n + 1) % 2 ^ 52 = n % 2 ^ 52 + 1 := by omega
    rw [hfield, hfraction]
    refine Nat.mul_lt_mul_of_pos_right ?_ (Nat.two_pow_pos _)
    split <;> omega

theorem units_strictMono : StrictMono units := strictMono_nat_of_lt_succ units_lt_succ

theorem units_eq_zero : units n = 0 ↔ n = 0 := by
  have hzero : units 0 = 0 := rfl
  exact ⟨fun h => units_strictMono.injective (h.trans hzero.symm), fun h => h ▸ hzero⟩

/-- The number of a double as a multiple of the smallest one. -/
theorem numerator_units (d : Double) :
    d.numerator * smallest = signed d.isNegative (units d.magnitude) * d.denominator := by
  have hscale : d.scale = BinaryFormat.double.minScale + (d.magnitude / 2 ^ 52 - 1 : Nat) := rfl
  have hmin : BinaryFormat.double.minScale ≤ 0 := by decide
  have hexponents : d.scale.toNat + (-BinaryFormat.double.minScale).toNat =
      d.magnitude / 2 ^ 52 - 1 + (-d.scale).toNat := by
    omega
  have hsize : d.significand * 2 ^ d.scale.toNat * smallest =
      units d.magnitude * 2 ^ (-d.scale).toNat := by
    rw [smallest, Nat.mul_assoc, ← Nat.pow_add, hexponents, Nat.pow_add, ← Nat.mul_assoc]
    rfl
  unfold numerator denominator signed
  split
  · rw [Int.neg_mul, Int.neg_mul, ← Int.natCast_mul, ← Int.natCast_mul, hsize]
  · rw [← Int.natCast_mul, ← Int.natCast_mul, hsize]

/-! ## Equal numbers -/

theorem bits_eq (d : Double) : d.bits.toNat = d.magnitude + if d.isNegative then 2 ^ 63 else 0 := by
  have := d.bits.toNat_lt
  unfold magnitude isNegative
  split <;> simp_all <;> omega

/-- Doubles of one number are the same or both zeros. -/
theorem number?_inj (ha : a.number? = some q) (hb : b.number? = some q) :
    a.bits = b.bits ∨ a.isZero = true ∧ b.isZero = true := by
  obtain ⟨-, ha⟩ := number?_eq_some.mp ha
  obtain ⟨-, hb⟩ := number?_eq_some.mp hb
  have hcross := (Rat.mkRat_eq_iff a.denominator_ne_zero b.denominator_ne_zero).mp (ha.trans hb.symm)
  have hunits : signed a.isNegative (units a.magnitude) = signed b.isNegative (units b.magnitude) := by
    have hpos : ∀ d : Double, (d.denominator : Int) ≠ 0 := fun d h =>
      d.denominator_ne_zero (Int.ofNat_eq_zero.mp h)
    refine Int.eq_of_mul_eq_mul_right (hpos a) (Int.eq_of_mul_eq_mul_right (hpos b) ?_)
    rw [← numerator_units a, Int.mul_right_comm, hcross, Int.mul_right_comm, numerator_units b,
      Int.mul_right_comm]
  by_cases hsign : a.isNegative = b.isNegative
  · left
    have hmagnitude : a.magnitude = b.magnitude := by
      refine units_strictMono.injective ?_
      rw [hsign] at hunits
      unfold signed at hunits
      split at hunits <;> omega
    exact UInt64.toNat_inj.mp (by rw [bits_eq, bits_eq b, hmagnitude, hsign])
  · right
    have hzero : units a.magnitude = 0 ∧ units b.magnitude = 0 := by
      rw [signed, signed] at hunits
      by_cases hnegative : a.isNegative = true
      · rw [if_pos hnegative, if_neg fun h => hsign (hnegative.trans h.symm)] at hunits
        omega
      · have hother : b.isNegative = true := by
          by_contra h
          exact hsign (((Bool.not_eq_true _).mp hnegative).trans ((Bool.not_eq_true _).mp h).symm)
        rw [if_neg hnegative, if_pos hother] at hunits
        omega
    exact ⟨beq_iff_eq.mpr (units_eq_zero.mp hzero.1), beq_iff_eq.mpr (units_eq_zero.mp hzero.2)⟩

/-! ## Integers -/

theorem signed_eq_mul {negative : Bool} {den : Nat} (hden : 0 < den) :
    signed negative n = i * den ↔ n % den = 0 ∧ signed negative (n / den) = i := by
  constructor
  · intro h
    have hdvd : den ∣ n := by
      refine Int.natCast_dvd_natCast.mp ⟨if negative then -i else i, ?_⟩
      cases negative <;> simp only [signed, if_true, Bool.false_eq_true, if_false] at h ⊢ <;> grind
    obtain ⟨k, rfl⟩ := hdvd
    refine ⟨Nat.mul_mod_right den k, Int.eq_of_mul_eq_mul_right (Int.natCast_ne_zero.mpr hden.ne') ?_⟩
    rw [← h, Nat.mul_div_cancel_left k hden]
    cases negative <;> simp only [signed, if_true, Bool.false_eq_true, if_false] <;> grind
  · rintro ⟨hmod, rfl⟩
    have hsplit : n / den * den = n := Nat.div_mul_cancel (Nat.dvd_of_mod_eq_zero hmod)
    unfold signed
    split
    · rw [Int.neg_mul, ← Int.natCast_mul, hsplit]
    · rw [← Int.natCast_mul, hsplit]

/-- A double is converted to the integer that it denotes. -/
theorem toInt?_eq_some : d.toInt? = some i ↔ d.number? = some (i : Rat) := by
  have hwhole : mkRat d.numerator d.denominator = (i : Rat) ↔ d.numerator = i * d.denominator := by
    rw [← Rat.mkRat_one, Rat.mkRat_eq_iff d.denominator_ne_zero Nat.one_ne_zero, Int.natCast_one, Int.mul_one]
  rw [number?_eq_some, hwhole, numerator, signed_eq_mul (Nat.pos_of_ne_zero d.denominator_ne_zero)]
  change (if d.isFinite then
    (if d.significand * 2 ^ d.scale.toNat % d.denominator = 0 then
      some (signed d.isNegative (d.significand * 2 ^ d.scale.toNat / d.denominator)) else none) else none) = _ ↔ _
  by_cases hfinite : d.isFinite = true
  · by_cases hmod : d.significand * 2 ^ d.scale.toNat % d.denominator = 0 <;> simp [hfinite, hmod]
  · simp [hfinite]

/-- A double is converted to the integer of 64 bits that it denotes. -/
theorem toInt64?_eq_some :
    d.toInt64? = some i ↔ d.number? = some (i : Rat) ∧ -2 ^ 63 ≤ i ∧ i < 2 ^ 63 := by
  rw [toInt64?, Option.filter_eq_some_iff, toInt?_eq_some, Bool.and_eq_true, decide_eq_true_eq, decide_eq_true_eq]

/-- The first number above the range. -/
example : (⟨0x43E0000000000000⟩ : Double).toInt64? = none := by decide

/-! ## Zeros, infinities, NaN -/

theorem toInt64?_of_isZero (h : d.isZero = true) : d.toInt64? = some 0 := by
  have hmagnitude : d.magnitude = 0 := beq_iff_eq.mp h
  have hfinite : d.isFinite = true := by
    rw [isFinite, hmagnitude]
    decide
  have hnumerator : d.numerator = 0 := by
    have hsignificand : d.significand = 0 := by
      rw [significand, hmagnitude]
      decide
    rw [numerator, hsignificand, Nat.zero_mul]
    cases d.isNegative <;> rfl
  refine toInt64?_eq_some.mpr ⟨number?_eq_some.mpr ⟨hfinite, ?_⟩, by decide, by decide⟩
  rw [hnumerator, Rat.zero_mkRat]
  rfl

theorem isNaN_of_number? (h : d.number? = some q) : d.isNaN = false := by
  obtain ⟨hfinite, -⟩ := number?_eq_some.mp h
  exact decide_eq_false (Nat.lt_asymm (decide_eq_true_iff.mp hfinite))

end ScriptHost.Double
