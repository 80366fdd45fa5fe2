import Mathlib.Tactic.Common
import ScriptHost.StringPool

/-! # Strings and their numbers

In the pool of a machine a string has one number and keeps it: a bucket holds the numbers of the
strings of its hash and no others, and no string is stored twice.
-/

namespace ScriptHost.StringPool

variable {p : StringPool} {bytes other : Bytes} {id : StringId}

/-- Buckets hold what they should, and strings are told by their numbers. -/
structure Sound (p : StringPool) : Prop where
  mem_bucket : ∀ {hash id}, id ∈ p.buckets.getD hash [] ↔
    ∃ bytes : Bytes, p.strings[id]? = some bytes ∧ bytes.hash = hash
  distinct : ∀ {i j : Nat} {bytes : Bytes}, p.strings[i]? = some bytes →
    p.strings[j]? = some bytes → i = j

theorem sound_empty : Sound {} :=
  ⟨by simp, by simp⟩

/-- The pool finds exactly the strings that it holds. -/
theorem find?_eq_some (hp : p.Sound) : p.find? bytes = some id ↔ p.strings[id]? = some bytes := by
  have hfind : ∀ {id}, p.find? bytes = some id → p.strings[id]? = some bytes := by
    intro id h
    simpa using List.find?_some h
  refine ⟨hfind, fun h => ?_⟩
  have hmem := hp.mem_bucket.mpr ⟨bytes, h, rfl⟩
  cases hf : p.find? bytes with
  | some id' => rw [hp.distinct (hfind hf) h]
  | none =>
      rw [find?, List.find?_eq_none] at hf
      exact absurd (by simpa using h) (hf id hmem)

theorem find?_eq_none (hp : p.Sound) :
    p.find? bytes = none ↔ ∀ id : Nat, p.strings[id]? ≠ some bytes := by
  rw [Option.eq_none_iff_forall_ne_some]
  exact forall_congr' fun id => not_congr (find?_eq_some hp)

theorem strings_intern (p : StringPool) (bytes : Bytes) : (p.intern bytes).2.strings = p.strings ∨
    p.find? bytes = none ∧ (p.intern bytes).2.strings = p.strings.push bytes ∧
      (p.intern bytes).1 = p.strings.size := by
  unfold intern
  split
  · exact .inl rfl
  · rename_i h
    exact .inr ⟨h, rfl, rfl⟩

/-- Strings keep their numbers. -/
theorem intern_keeps (h : p.strings[id]? = some other) :
    (p.intern bytes).2.strings[id]? = some other := by
  rcases strings_intern p bytes with hs | ⟨-, hs, -⟩
  · rw [hs, h]
  · have hlt := (Array.getElem?_eq_some_iff.mp h).1
    rw [hs, Array.getElem?_push_lt hlt, ← h, Array.getElem?_eq_getElem hlt]

/-- The number that interning gives is that of the string. -/
theorem intern_found : (p.intern bytes).2.strings[(p.intern bytes).1]? = some bytes := by
  unfold intern
  split
  · rename_i h
    simpa using List.find?_some h
  · simp [size]

theorem intern_sound (hp : p.Sound) : (p.intern bytes).2.Sound := by
  unfold intern
  split
  · exact hp
  · rename_i hnone
    rw [find?_eq_none hp] at hnone
    constructor
    · intro hash id
      simp only [Std.HashMap.getD_insert, beq_iff_eq, size]
      by_cases hid : id = p.strings.size
      · subst hid
        split
        · rename_i heq
          simp [heq]
        · rename_i hne
          simpa [hp.mem_bucket] using hne
      · have hpush : (p.strings.push bytes)[id]? = p.strings[id]? := by
          rw [Array.getElem?_push, if_neg hid]
        rw [hpush, ← hp.mem_bucket]
        split
        · rename_i heq
          simp [heq, hid]
        · rfl
    · intro i j found hi hj
      rw [Array.getElem?_push] at hi hj
      split at hi <;> split at hj
      · omega
      · exact absurd (by simpa using hi ▸ hj) (hnone j)
      · exact absurd (by simpa using hj ▸ hi) (hnone i)
      · exact hp.distinct hi hj

theorem find?_intern (hp : p.Sound) : (p.intern bytes).2.find? bytes = some (p.intern bytes).1 :=
  (find?_eq_some (intern_sound hp)).mpr intern_found

/-- Interning a string again gives the same number and changes nothing. -/
theorem intern_again (hp : p.Sound) (h : p.strings[id]? = some bytes) :
    p.intern bytes = (id, p) := by
  rw [intern, (find?_eq_some hp).mpr h]

/-- Every string of a pool has its number in another. -/
def Extends (p p' : StringPool) : Prop :=
  ∀ (id : Nat) (bytes : Bytes), p.strings[id]? = some bytes → p'.strings[id]? = some bytes

theorem Extends.refl (p : StringPool) : p.Extends p := fun _ _ h => h

theorem Extends.trans {p p' p'' : StringPool} (h : p.Extends p') (h' : p'.Extends p'') :
    p.Extends p'' := fun id bytes hid => h' id bytes (h id bytes hid)

theorem extends_intern (p : StringPool) (bytes : Bytes) : p.Extends (p.intern bytes).2 :=
  fun _ _ h => intern_keeps h

/-- New strings get their numbers in order. -/
theorem strings_internAll {α : Type} {f : α → Bytes} {names : List α} (hp : p.Sound)
    (hdistinct : (names.map f).Nodup)
    (hnew : ∀ b ∈ names.map f, ∀ id : Nat, p.strings[id]? ≠ some b) :
    (names.foldl (fun p a => (p.intern (f a)).2) p).strings =
      p.strings ++ (names.map f).toArray := by
  induction names generalizing p with
  | nil => simp
  | cons a names ih =>
      rw [List.map_cons] at hdistinct hnew
      obtain ⟨hout, hdistinct⟩ := List.nodup_cons.mp hdistinct
      have hnone : p.find? (f a) = none :=
        (find?_eq_none hp).mpr (hnew _ List.mem_cons_self)
      have hpush : (p.intern (f a)).2.strings = p.strings.push (f a) := by
        simp only [intern, hnone]
      rw [List.foldl_cons, ih (intern_sound hp) hdistinct fun b hb id hid => ?_, hpush]
      · simp
      · rw [hpush, Array.getElem?_push] at hid
        split at hid
        · exact hout (Option.some.inj hid ▸ hb)
        · exact hnew b (List.mem_cons_of_mem _ hb) id hid

end ScriptHost.StringPool
