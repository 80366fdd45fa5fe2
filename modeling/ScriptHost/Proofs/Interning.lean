import Mathlib.Data.List.Induction
import Mathlib.Tactic.Common
import ScriptHost.Proofs.StringPool

/-! # Interning over a history of calls

A history is a pool with all the calls it has answered. Nothing is assumed of the calls: strings
may be empty, contain zero bytes or share a hash. Numbers and interned strings correspond one to
one because each entry of the pool stems from a call and each call from then on finds that entry.
-/

namespace ScriptHost.StringPool

/-- What is asked of a pool. -/
inductive Call
  | intern (bytes : Bytes)
  | find (bytes : Bytes)

namespace Call

/-- The answer to a call and the pool after it. -/
def run : Call → StringPool → Option StringId × StringPool
  | .intern bytes, p => (some (p.intern bytes).1, (p.intern bytes).2)
  | .find bytes, p => (p.find? bytes, p)

/-- Whether a call may add a string. -/
def interns : Call → Bool
  | .intern _ => true
  | .find _ => false

end Call

/-- A pool and the calls it has answered, the last one first. -/
structure History where
  pool : StringPool := {}
  answers : List (Call × Option StringId) := []

namespace History

/-- One call more. -/
def next (h : History) (call : Call) : History where
  pool := (call.run h.pool).2
  answers := (call, (call.run h.pool).1) :: h.answers

/-- The history of a sequence of calls to a new pool. -/
def of (calls : List Call) : History := calls.foldl next {}

variable {h : History} {calls later : List Call} {bytes other : Bytes} {id id' : StringId}

theorem of_append_singleton (calls : List Call) (call : Call) :
    of (calls ++ [call]) = (of calls).next call := by
  simp [of, List.foldl_append]

/-- The calls of a history are those that were made. -/
theorem answers_of (calls : List Call) : (of calls).answers.map Prod.fst = calls.reverse := by
  induction calls using List.reverseRecOn with
  | nil => rfl
  | append_singleton calls call ih => simpa [of_append_singleton, next] using ih

/-- Later calls leave the answers as they were. -/
theorem answers_suffix (calls later : List Call) :
    (of calls).answers <:+ (of (calls ++ later)).answers := by
  induction later using List.reverseRecOn with
  | nil => simp
  | append_singleton later call ih =>
      rw [← List.append_assoc, of_append_singleton]
      exact ih.trans (List.suffix_cons _ _)

/-- What every call preserves: the pool holds under each number the string that got it, and a
    string was found if it had been interned before. -/
structure Numbered (h : History) : Prop where
  sound : h.pool.Sound
  answered : ∀ {bytes answer}, (Call.intern bytes, answer) ∈ h.answers → answer ≠ none
  held : ∀ {id bytes},
    h.pool.strings[id]? = some bytes ↔ (Call.intern bytes, some id) ∈ h.answers
  found : ∀ {after before bytes answer},
    h.answers = after ++ (Call.find bytes, answer) :: before →
      ∀ id, answer = some id ↔ (Call.intern bytes, some id) ∈ before

theorem numbered_empty : Numbered {} where
  sound := sound_empty
  answered := by simp
  held := by simp
  found := by simp

/-- Under a number there is what was there before or what was interned under it just now. -/
theorem held_intern {p : StringPool} :
    (p.intern bytes).2.strings[id]? = some other ↔
      p.strings[id]? = some other ∨ bytes = other ∧ (p.intern bytes).1 = id := by
  constructor
  · intro h
    rcases strings_intern p bytes with hs | ⟨-, hs, hid⟩
    · exact .inl (hs ▸ h)
    · rw [hs, Array.getElem?_push] at h
      split at h
      · rename_i heq
        exact .inr ⟨Option.some.inj h, hid.trans heq.symm⟩
      · exact .inl h
  · rintro (h | ⟨rfl, rfl⟩)
    · exact intern_keeps h
    · exact intern_found

theorem Numbered.next (hn : h.Numbered) (call : Call) : (h.next call).Numbered := by
  cases call with
  | intern bytes =>
      refine ⟨intern_sound hn.sound, ?_, ?_, ?_⟩
      · intro other answer hmem
        rcases List.mem_cons.mp hmem with heq | hmem
        · cases heq
          exact Option.some_ne_none _
        · exact hn.answered hmem
      · intro id other
        have hhead : (Call.intern other, some id) =
            (Call.intern bytes, some (h.pool.intern bytes).1) ↔
              bytes = other ∧ (h.pool.intern bytes).1 = id := by
          simp [eq_comm]
        exact held_intern.trans
          ((or_comm.trans (or_congr hhead.symm hn.held)).trans List.mem_cons.symm)
      · intro after before other answer heq
        cases after with
        | nil => cases heq
        | cons head after => exact hn.found (List.cons.inj heq).2
  | find bytes =>
      refine ⟨hn.sound, ?_, ?_, ?_⟩
      · intro other answer hmem
        rcases List.mem_cons.mp hmem with heq | hmem
        · cases heq
        · exact hn.answered hmem
      · intro id other
        refine hn.held.trans (Iff.trans ?_ List.mem_cons.symm)
        simp
      · intro after before other answer heq
        cases after with
        | nil =>
            cases heq
            exact fun id => (find?_eq_some hn.sound).trans hn.held
        | cons head after => exact hn.found (List.cons.inj heq).2

theorem numbered (calls : List Call) : (of calls).Numbered :=
  List.foldlRecOn calls next numbered_empty fun _ hn call _ => hn.next call

/-- A pool is built by the calls that intern alone. -/
theorem pool_interns (calls : List Call) :
    (of (calls.filter Call.interns)).pool = (of calls).pool := by
  induction calls using List.reverseRecOn with
  | nil => rfl
  | append_singleton calls call ih =>
      rw [List.filter_append, of_append_singleton]
      cases call with
      | intern bytes =>
          have hfilter : [Call.intern bytes].filter Call.interns = [Call.intern bytes] := rfl
          rw [hfilter, of_append_singleton, next, next, ih]
      | find bytes =>
          have hfilter : [Call.find bytes].filter Call.interns = [] := rfl
          rw [hfilter, List.append_nil, ih]
          rfl

theorem Numbered.get (hn : h.Numbered) (hmem : (Call.intern bytes, some id) ∈ h.answers) :
    h.pool.get id = bytes := by
  rw [StringPool.get, hn.held.mpr hmem, Option.getD_some]

theorem Numbered.unique (hn : h.Numbered) (hmem : (Call.intern bytes, some id) ∈ h.answers)
    (hmem' : (Call.intern other, some id') ∈ h.answers) : id = id' ↔ bytes = other := by
  constructor
  · rintro rfl
    rw [← hn.get hmem, hn.get hmem']
  · rintro rfl
    exact hn.sound.distinct (hn.held.mpr hmem) (hn.held.mpr hmem')

theorem Numbered.lt_size_iff (hn : h.Numbered) :
    id < h.pool.size ↔ ∃ bytes, (Call.intern bytes, some id) ∈ h.answers := by
  simp only [← hn.held]
  constructor
  · exact fun hlt => ⟨_, Array.getElem?_eq_getElem hlt⟩
  · rintro ⟨bytes, hid⟩
    exact (Array.getElem?_eq_some_iff.mp hid).1

theorem Numbered.found_none (hn : h.Numbered) {after before : List (Call × Option StringId)}
    {answer : Option StringId} (heq : h.answers = after ++ (Call.find bytes, answer) :: before) :
    answer = none ↔ Call.intern bytes ∉ before.map Prod.fst := by
  have hbefore : ∀ x ∈ before, x ∈ h.answers := by
    intro x hx
    rw [heq]
    exact List.mem_append_right _ (List.mem_cons_of_mem _ hx)
  constructor
  · rintro rfl hmem
    obtain ⟨⟨call, given⟩, hx, rfl⟩ := List.mem_map.mp hmem
    cases given with
    | none => exact hn.answered (hbefore _ hx) rfl
    | some id => exact Option.some_ne_none id ((hn.found heq id).mpr hx).symm
  · intro hout
    cases answer with
    | none => rfl
    | some id =>
        exact absurd (List.mem_map.mpr ⟨_, (hn.found heq id).mp rfl, rfl⟩) hout

/-- For any calls to a new pool, interned strings and their numbers correspond one to one: every
    string that is interned gets a number, the same one for the same string only, the numbers
    are those below the size of the pool, and each gives its string from then on. To look for a
    string adds nothing; it gives the number if the string was interned before and none
    otherwise. -/
theorem interned_iff_numbered (calls : List Call) :
    (of calls).answers.map Prod.fst = calls.reverse ∧
    (∀ bytes answer, (Call.intern bytes, answer) ∈ (of calls).answers →
      ∃ id, answer = some id ∧ ∀ later, (of (calls ++ later)).pool.get id = bytes) ∧
    (∀ bytes other id id', (Call.intern bytes, some id) ∈ (of calls).answers →
      (Call.intern other, some id') ∈ (of calls).answers → (id = id' ↔ bytes = other)) ∧
    (∀ id, id < (of calls).pool.size ↔
      ∃ bytes, (Call.intern bytes, some id) ∈ (of calls).answers) ∧
    (∀ after before bytes answer,
      (of calls).answers = after ++ (Call.find bytes, answer) :: before →
        (∀ id, answer = some id ↔ (Call.intern bytes, some id) ∈ before) ∧
        (answer = none ↔ Call.intern bytes ∉ before.map Prod.fst)) ∧
    (of (calls.filter Call.interns)).pool = (of calls).pool := by
  have hn := numbered calls
  refine ⟨answers_of calls, ?_, fun _ _ _ _ => hn.unique, fun _ => hn.lt_size_iff,
    fun _ _ _ _ heq => ⟨hn.found heq, hn.found_none heq⟩, pool_interns calls⟩
  intro bytes answer hmem
  obtain ⟨id, rfl⟩ := Option.ne_none_iff_exists'.mp (hn.answered hmem)
  exact ⟨id, rfl, fun later => (numbered _).get ((answers_suffix calls later).subset hmem)⟩

end History

end ScriptHost.StringPool
