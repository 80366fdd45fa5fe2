import Mathlib.Tactic.Common
import ScriptHost.Heap.Marking

/-! # What marking marks

References of an object are followed once, when it is taken off the list of pending objects. The
invariant of the work that is left: a marked object is pending, or all that it refers to is marked.
When nothing is pending the marks are closed under references, and every mark that was added came
from a start or along a reference.
-/

namespace ScriptHost

namespace Marks

variable {m : Marks} {r s : Ref}

theorem contains_insert : (m.insert r).contains s = true ↔ m.contains s = true ∨ s = r := by
  obtain ⟨kind, slot⟩ := r
  obtain ⟨kind', slot'⟩ := s
  by_cases hk : kind' = kind
  · subst hk
    have hset : ∀ marks : Array Bool, (marks.setIfInBounds slot true)[slot']?.getD true = true ↔
        marks[slot']?.getD true = true ∨ slot' = slot := by
      intro marks
      rw [Array.getElem?_setIfInBounds]
      by_cases hs : slot = slot'
      · subst hs
        by_cases hlt : slot < marks.size <;> simp [hlt]
      · simp [hs, Ne.symm hs]
    cases kind' <;> simpa [contains, insert, of] using hset _
  · cases kind <;> cases kind' <;> simp_all [contains, insert, of]

end Marks

namespace Marking

variable {references : Ref → List Value} {m : Marking} {r : Ref} {v : Value} {vs : List Value}

/-- Whether an object is marked. -/
def Marked (m : Marking) (r : Ref) : Prop := m.marks.contains r = true

theorem marked_visit : (m.visit v).Marked r ↔ m.Marked r ∨ v.ref? = some r := by
  unfold visit Marked
  cases hv : v.ref? with
  | none => simp
  | some s =>
      by_cases hs : m.marks.contains s = true
      · simp only [hs, if_true, Option.some.injEq]
        constructor
        · exact .inl
        · rintro (h | rfl)
          · exact h
          · exact hs
      · simp only [hs, Bool.false_eq_true, if_false, Option.some.injEq]
        rw [Marks.contains_insert, eq_comm (a := s)]

theorem marked_visitAll : (m.visitAll vs).Marked r ↔ m.Marked r ∨ ∃ v ∈ vs, v.ref? = some r := by
  induction vs generalizing m with
  | nil => simp [visitAll]
  | cons v vs ih =>
      rw [show m.visitAll (v :: vs) = (m.visit v).visitAll vs from rfl, ih, marked_visit]
      simp [or_assoc]

/-- What a visit newly marks is pending, unless it is a box. -/
theorem pending_visit (h : (m.visit v).Marked r) (hm : ¬ m.Marked r) (hr : r.kind ≠ .boxed) :
    r ∈ (m.visit v).pending := by
  have hv := (marked_visit.mp h).resolve_left hm
  have hmark : m.marks.contains r = false := by simpa [Marked] using hm
  simp [visit, hv, hmark, hr]

theorem pending_visit_mono (h : r ∈ m.pending) : r ∈ (m.visit v).pending := by
  unfold visit
  split
  · split
    · exact h
    · dsimp only
      split
      · exact h
      · exact List.mem_cons_of_mem _ h
  · exact h

theorem mem_pending_visit (h : r ∈ (m.visit v).pending) : r ∈ m.pending ∨ v.ref? = some r := by
  unfold visit at h
  split at h
  · rename_i s hs
    split at h
    · exact .inl h
    · dsimp only at h
      split at h
      · exact .inl h
      · rcases List.mem_cons.mp h with rfl | h
        · exact .inr hs
        · exact .inl h
  · exact .inl h

theorem pending_visitAll_mono (h : r ∈ m.pending) : r ∈ (m.visitAll vs).pending := by
  induction vs generalizing m with
  | nil => exact h
  | cons v vs ih => exact ih (pending_visit_mono h)

theorem pending_visitAll (h : (m.visitAll vs).Marked r) (hm : ¬ m.Marked r)
    (hr : r.kind ≠ .boxed) : r ∈ (m.visitAll vs).pending := by
  induction vs generalizing m with
  | nil => exact absurd h hm
  | cons v vs ih =>
      change r ∈ ((m.visit v).visitAll vs).pending
      by_cases hv : (m.visit v).Marked r
      · exact pending_visitAll_mono (pending_visit hv hm hr)
      · exact ih h hv

theorem mem_pending_visitAll (h : r ∈ (m.visitAll vs).pending) :
    r ∈ m.pending ∨ ∃ v ∈ vs, v.ref? = some r := by
  induction vs generalizing m with
  | nil => exact .inl h
  | cons v vs ih =>
      rcases ih h with hp | ⟨w, hw, hr⟩
      · rcases mem_pending_visit hp with hp | hr
        · exact .inl hp
        · exact .inr ⟨v, List.mem_cons_self, hr⟩
      · exact .inr ⟨w, List.mem_cons_of_mem _ hw, hr⟩

/-! ## The invariant -/

/-- All that an object refers to is marked. -/
def Followed (references : Ref → List Value) (m : Marking) (r : Ref) : Prop :=
  ∀ v ∈ references r, ∀ s, v.ref? = some s → m.Marked s

/-- Every marked object is still pending or was followed. -/
def Settled (references : Ref → List Value) (m : Marking) : Prop :=
  ∀ r, m.Marked r → r ∈ m.pending ∨ m.Followed references r

/-- Boxed integers hold no references. -/
def Boxless (references : Ref → List Value) : Prop := ∀ r : Ref, r.kind = .boxed → references r = []

theorem Followed.visitAll (h : m.Followed references r) : (m.visitAll vs).Followed references r :=
  fun v hv s hs => marked_visitAll.mpr (.inl (h v hv s hs))

theorem Settled.visitAll (hb : Boxless references) (h : m.Settled references) :
    (m.visitAll vs).Settled references := by
  intro r hr
  by_cases hm : m.Marked r
  · exact (h r hm).imp pending_visitAll_mono Followed.visitAll
  · by_cases hk : r.kind = .boxed
    · refine .inr fun v hv => ?_
      simp [hb r hk] at hv
    · exact .inl (pending_visitAll hr hm hk)

/-- Following one pending object keeps the invariant. -/
theorem Settled.round (hb : Boxless references) (h : m.Settled references) {rest : List Ref}
    (hp : m.pending = r :: rest) :
    ({ m with pending := rest }.visitAll (references r)).Settled references := by
  intro s hs
  by_cases hm : m.Marked s
  · rcases h s hm with hpend | hfol
    · rw [hp] at hpend
      rcases List.mem_cons.mp hpend with rfl | hrest
      · exact .inr fun v hv t ht => marked_visitAll.mpr (.inr ⟨v, hv, ht⟩)
      · exact .inl (pending_visitAll_mono hrest)
    · exact .inr (Followed.visitAll (m := { m with pending := rest }) hfol)
  · by_cases hk : s.kind = .boxed
    · refine .inr fun v hv => ?_
      simp [hb s hk] at hv
    · exact .inl (pending_visitAll hs hm hk)

/-! ## Draining -/

theorem drain_pending : (drain references m).2.pending = [] := by
  fun_induction drain with
  | case1 m h => exact h
  | case2 m r rest h n done hd ih =>
      rw [hd] at ih
      exact ih

theorem drain_settled (hb : Boxless references) (h : m.Settled references) :
    (drain references m).2.Settled references := by
  fun_induction drain with
  | case1 m => exact h
  | case2 m r rest hp n done hd ih =>
      rw [hd] at ih
      exact ih (h.round hb hp)

theorem drain_marked (h : m.Marked r) : (drain references m).2.Marked r := by
  fun_induction drain with
  | case1 m => exact h
  | case2 m s rest hp n done hd ih =>
      rw [hd] at ih
      exact ih (marked_visitAll.mpr (.inl h))

/-- After a drain, what marked objects refer to is marked. -/
theorem drain_closed (hb : Boxless references) (h : m.Settled references)
    (hr : (drain references m).2.Marked r) : (drain references m).2.Followed references r := by
  refine (drain_settled hb h r hr).resolve_left ?_
  simp [drain_pending]

/-- A drain marks nothing outside a set that holds the pending objects and is closed under
    references. -/
theorem drain_within {P : Ref → Prop} (hpending : ∀ r ∈ m.pending, P r)
    (hclosed : ∀ r, P r → ∀ v ∈ references r, ∀ s, v.ref? = some s → P s)
    (hr : (drain references m).2.Marked r) : m.Marked r ∨ P r := by
  fun_induction drain with
  | case1 m => exact .inl hr
  | case2 m s rest hp n done hd ih =>
      have hs : P s := hpending s (hp ▸ List.mem_cons_self)
      rw [hd] at ih
      have hback := ih (fun t ht => by
        rcases mem_pending_visitAll ht with hrest | ⟨v, hv, hvt⟩
        · exact hpending t (hp ▸ List.mem_cons_of_mem _ hrest)
        · exact hclosed s hs v hv t hvt) hr
      rcases hback with hm | hP
      · rcases marked_visitAll.mp hm with hm | ⟨v, hv, hvr⟩
        · exact .inl hm
        · exact .inr (hclosed s hs v hv r hvr)
      · exact .inr hP

end Marking

end ScriptHost
