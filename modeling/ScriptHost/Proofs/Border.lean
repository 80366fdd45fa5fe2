import Mathlib.Logic.Function.Iterate
import ScriptHost.Proofs.FiniteMap

/-! # Borders

The length of a table is found by halving the array if that ends in nil, and else by counting on among
the entries behind it. Each round of either search keeps in view a place where values give way to nil, so
that what is found is a border, in every table; and no search goes on forever. In tables that were only
stored to, the array ends where the sequence does, and the search ends with its first round.
-/

namespace ScriptHost.Table

variable {t : Table} {array : Array Value} {n low high : Nat}

/-- A length at which the sequence may be said to end. -/
structure IsBorder (t : Table) (n : Nat) : Prop where
  last : n = 0 ∨ (t.getInt n).isNil = false
  next : t.getInt (n + 1) = .nil

/-- Where the search for the border stands. -/
inductive Seeking where
  /-- A part of the array is being halved. -/
  | halving (low high : Nat)
  /-- The keys up to a number are known to have values. -/
  | counting (n : Nat)
  | found (n : Nat)
  deriving DecidableEq, Repr

/-- Where the search begins. -/
def seekStart (t : Table) : Seeking :=
  if t.array.back?.any (·.isNil) then .halving 0 t.array.size else .counting t.array.size

/-- One round of the search. -/
def seek (t : Table) : Seeking → Seeking
  | .halving low high =>
      if low < high then
        if (t.array[(low + high) / 2]?.getD .nil).isNil then .halving low ((low + high) / 2)
        else .halving ((low + high) / 2 + 1) high
      else .found low
  | .counting n =>
      if (entryValue t.entries (.integer (n + 1))).isNil then .found n else .counting (n + 1)
  | .found n => .found n

/-- What is known of a border while it is searched for. -/
def Seeking.Sound (t : Table) : Seeking → Prop
  | .halving low high => low ≤ high ∧ high ≤ t.array.size ∧ t.array.back?.any (·.isNil) = true ∧
      (low = 0 ∨ (t.getInt low).isNil = false) ∧ (high = t.array.size ∨ t.getInt (high + 1) = .nil)
  | .counting n => t.array.size ≤ n ∧ (n = 0 ∨ (t.getInt n).isNil = false)
  | .found n => t.IsBorder n

/-! ## Rounds -/

/-- The value at a position of the array is that of the key after the position. -/
theorem getInt_succ (h : n < t.array.size) : t.getInt (n + 1) = t.array[n]?.getD .nil := by
  have hposition : ((n : Int) + 1 - 1).toNat = n := by omega
  rw [getInt_array (by omega) (by omega), hposition]

theorem getInt_behind (h : t.array.size ≤ n) :
    t.getInt (n + 1) = entryValue t.entries (.integer (n + 1)) :=
  getInt_entry (by omega)

/-- The last position of an array that ends in nil. -/
theorem getInt_back (h : t.array.back?.any (·.isNil) = true) :
    0 < t.array.size ∧ t.getInt t.array.size = .nil := by
  rw [Array.back?_eq_getElem?] at h
  cases hback : t.array[t.array.size - 1]? with
  | none =>
      rw [hback] at h
      cases h
  | some v =>
      rw [hback] at h
      have hpos : 0 < t.array.size := Nat.lt_of_le_of_lt (Nat.zero_le _) (Array.getElem?_eq_some_iff.mp hback).1
      have hlast : ((t.array.size : Nat) : Int) = ((t.array.size - 1 : Nat) : Int) + 1 := by omega
      refine ⟨hpos, ?_⟩
      rw [hlast, getInt_succ (by omega), hback]
      exact Value.eq_nil h

theorem sound_seekStart (t : Table) : t.seekStart.Sound t := by
  unfold seekStart
  split
  · rename_i hback
    exact ⟨Nat.zero_le _, Nat.le_refl _, hback, .inl rfl, .inl rfl⟩
  · rename_i hback
    refine ⟨Nat.le_refl _, ?_⟩
    by_cases hsize : t.array.size = 0
    · exact .inl hsize
    · obtain ⟨k, hk⟩ := Nat.exists_eq_succ_of_ne_zero hsize
      have hlast : ((t.array.size : Nat) : Int) = (k : Int) + 1 := by omega
      refine .inr ?_
      rw [Array.back?_eq_getElem?, hk, Nat.succ_sub_one, Array.getElem?_eq_getElem (by omega)] at hback
      rw [hlast, getInt_succ (by omega), Array.getElem?_eq_getElem (by omega)]
      simpa using hback

/-- A round that halves keeps a value before the part and nil behind it. -/
theorem sound_halving (h : (Seeking.halving low high).Sound t) : (t.seek (.halving low high)).Sound t := by
  obtain ⟨hle, hsize, hback, hlow, hhigh⟩ := h
  rw [seek]
  by_cases hlt : low < high
  · rw [if_pos hlt]
    have hmiddle := getInt_succ (t := t) (n := (low + high) / 2) (by omega)
    by_cases hnil : (t.array[(low + high) / 2]?.getD .nil).isNil = true
    · rw [if_pos hnil]
      exact ⟨by omega, by omega, hback, hlow, .inr (hmiddle.trans (Value.eq_nil hnil))⟩
    · rw [if_neg hnil]
      refine ⟨by omega, hsize, hback, .inr ?_, hhigh⟩
      rw [Int.natCast_add, Int.natCast_one, hmiddle]
      exact Bool.eq_false_iff.mpr hnil
  · rw [if_neg hlt]
    obtain rfl : low = high := by omega
    refine ⟨hlow, hhigh.resolve_left fun heq => ?_⟩
    -- The array ends in nil, so its last position is never one behind a value.
    obtain ⟨hpos, hlast⟩ := getInt_back hback
    rw [heq, hlast] at hlow
    rcases hlow with hzero | hvalue
    · omega
    · cases hvalue

theorem sound_counting (h : (Seeking.counting n).Sound t) : (t.seek (.counting n)).Sound t := by
  obtain ⟨hsize, hlast⟩ := h
  have hnext := getInt_behind hsize
  rw [seek]
  split
  · rename_i hnil
    exact ⟨hlast, hnext.trans (Value.eq_nil hnil)⟩
  · rename_i hvalue
    refine ⟨by omega, .inr ?_⟩
    rw [Int.natCast_add, Int.natCast_one, hnext]
    exact Bool.eq_false_iff.mpr hvalue

theorem Seeking.Sound.seek {s : Seeking} (h : s.Sound t) : (t.seek s).Sound t := by
  cases s with
  | halving low high => exact sound_halving h
  | counting n => exact sound_counting h
  | found n => exact h

theorem sound_rounds (t : Table) (rounds : Nat) : (t.seek^[rounds] t.seekStart).Sound t := by
  induction rounds with
  | zero => exact sound_seekStart t
  | succ rounds ih =>
      rw [Function.iterate_succ_apply']
      exact ih.seek

/-! ## The end of the search -/

theorem halving_found (t : Table) (low high : Nat) :
    ∃ rounds, t.seek^[rounds] (.halving low high) = .found (bisect t.array low high) := by
  induction low, high using bisect.induct t.array with
  | case1 low high hlt hnil ih =>
      obtain ⟨rounds, hfound⟩ := ih
      refine ⟨rounds + 1, ?_⟩
      rw [Function.iterate_succ_apply, bisect, if_pos hlt, if_pos hnil, ← hfound, seek, if_pos hlt, if_pos hnil]
  | case2 low high hlt hvalue ih =>
      obtain ⟨rounds, hfound⟩ := ih
      refine ⟨rounds + 1, ?_⟩
      rw [Function.iterate_succ_apply, bisect, if_pos hlt, if_neg hvalue, ← hfound, seek, if_pos hlt,
        if_neg hvalue]
  | case3 low high hdone =>
      refine ⟨1, ?_⟩
      rw [Function.iterate_one, bisect, if_neg hdone, seek, if_neg hdone]

/-- Whether an entry has an integer key beyond a number. -/
def isBeyond (n : Nat) (e : Key × Value) : Bool :=
  match e.1 with
  | .integer i => n < i
  | _ => false

/-- How many entries a count may still come to. -/
def beyond (entries : List (Key × Value)) (n : Nat) : Nat := entries.countP (isBeyond n)

/-- A key that the count passes is behind it from then on. -/
theorem beyond_succ {entries : List (Key × Value)}
    (h : (entryValue entries (.integer (n + 1))).isNil = false) : beyond entries (n + 1) < beyond entries n := by
  obtain ⟨before, after, hsplit⟩ := List.append_of_mem (mem_of_entryValue h)
  have hmono : ∀ l : List (Key × Value), beyond l (n + 1) ≤ beyond l n := by
    intro l
    refine List.countP_mono_left fun e _ he => ?_
    unfold isBeyond at he ⊢
    cases hkey : e.1 <;> rw [hkey] at he <;> simp only [decide_eq_true_eq, Bool.false_eq_true] at he ⊢
    omega
  have hbefore := hmono before
  have hafter := hmono after
  generalize entryValue entries (.integer (n + 1)) = v at hsplit
  subst hsplit
  unfold beyond at hbefore hafter ⊢
  rw [List.countP_append, List.countP_append, List.countP_cons_of_neg (by simp [isBeyond]),
    List.countP_cons_of_pos (by simp only [isBeyond, decide_eq_true_eq]; omega)]
  omega

/-- The count comes to an end before it has passed all entries. -/
theorem counting_found (t : Table) (n fuel : Nat) (hfuel : beyond t.entries n ≤ fuel) :
    ∃ rounds, t.seek^[rounds] (.counting n) = .found (t.countOn n fuel) := by
  induction fuel generalizing n with
  | zero =>
      refine ⟨1, ?_⟩
      have hnil : (entryValue t.entries (.integer (n + 1))).isNil = true := by
        by_contra hvalue
        have := beyond_succ (Bool.eq_false_iff.mpr hvalue)
        omega
      rw [Function.iterate_one, seek, if_pos hnil, countOn]
  | succ fuel ih =>
      rw [countOn]
      by_cases hnil : (entryValue t.entries (.integer (n + 1))).isNil = true
      · refine ⟨1, ?_⟩
        rw [Function.iterate_one, seek, if_pos hnil, if_pos hnil]
      · have hless := beyond_succ (Bool.eq_false_iff.mpr hnil)
        obtain ⟨rounds, hfound⟩ := ih (n + 1) (by omega)
        refine ⟨rounds + 1, ?_⟩
        rw [Function.iterate_succ_apply, seek, if_neg hnil, if_neg hnil, hfound]

/-- The search for the border comes to an end, in every table, with the table's length. -/
theorem seek_found (t : Table) : ∃ rounds, t.seek^[rounds] t.seekStart = .found t.length := by
  unfold seekStart length
  split
  · exact halving_found t 0 t.array.size
  · exact counting_found t t.array.size t.entries.length List.countP_le_length

/-- What the search ends with is a border. -/
theorem isBorder_length (t : Table) : t.IsBorder t.length := by
  obtain ⟨rounds, hfound⟩ := t.seek_found
  have hsound := t.sound_rounds rounds
  rw [hfound] at hsound
  exact hsound

/-- Where array and entries keep out of each other's way the sequence ends with the array. -/
theorem Layered.length_eq (ht : t.Layered) : t.length = t.array.size := by
  have hback : ¬ t.array.back?.any (·.isNil) = true := by
    cases hlast : t.array.back? with
    | none => exact Bool.noConfusion
    | some v =>
        rw [Option.any_some, ht.trimmed v hlast]
        exact Bool.noConfusion
  have hnext : (entryValue t.entries (.integer (t.array.size + 1))).isNil = true := by
    rw [ht.shadowed (t.array.size + 1) (by omega) (Int.le_refl _)]
    rfl
  rw [length, if_neg hback]
  cases t.entries.length with
  | zero => rfl
  | succ fuel => rw [countOn, if_pos hnext]

/-- However a table came about by stores, the search for its length comes to an end and gives a border:
    the key of the length has a value, unless the length is zero, and the key after it has none. -/
theorem storeAll_border (writes : List (Access × Value)) :
    (∃ rounds, (storeAll writes {}).seek^[rounds] (storeAll writes {}).seekStart =
      .found (storeAll writes {}).length) ∧ (storeAll writes {}).IsBorder (storeAll writes {}).length :=
  ⟨seek_found _, isBorder_length _⟩

end ScriptHost.Table
