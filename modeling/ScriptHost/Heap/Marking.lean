import ScriptHost.Value

/-! # Marking

The set of objects known to be reachable, with the objects whose references still have to be
followed. Draining follows references until none is left; it ends because every round either marks
an object or takes one off the list.
-/

namespace ScriptHost

/-- Marks of the four arenas, by slot. A slot beyond its marks counts as marked. -/
structure Marks where
  tables : Array Bool := #[]
  functions : Array Bool := #[]
  userdata : Array Bool := #[]
  boxed : Array Bool := #[]
  deriving Repr, Inhabited, DecidableEq

namespace Marks

def of (m : Marks) : ObjectKind → Array Bool
  | .table => m.tables
  | .function => m.functions
  | .userdata => m.userdata
  | .boxed => m.boxed

def contains (m : Marks) (r : Ref) : Bool := (m.of r.kind)[r.slot]?.getD true

def insert (m : Marks) : Ref → Marks
  | ⟨.table, slot⟩ => { m with tables := m.tables.setIfInBounds slot true }
  | ⟨.function, slot⟩ => { m with functions := m.functions.setIfInBounds slot true }
  | ⟨.userdata, slot⟩ => { m with userdata := m.userdata.setIfInBounds slot true }
  | ⟨.boxed, slot⟩ => { m with boxed := m.boxed.setIfInBounds slot true }

/-- The number of slots without a mark in one arena. -/
def missing (marks : Array Bool) : Nat := marks.toList.count false

/-- The number of slots without a mark. -/
def unmarked (m : Marks) : Nat :=
  missing m.tables + missing m.functions + missing m.userdata + missing m.boxed

theorem missing_set {marks : Array Bool} {slot : Nat} (h : marks[slot]? = some false) :
    missing (marks.setIfInBounds slot true) + 1 = missing marks := by
  have hl : slot < marks.toList.length := by
    rw [Array.length_toList]
    exact (Array.getElem?_eq_some_iff.mp h).1
  have hv : marks.toList[slot] = false := by
    rw [Array.getElem_toList]
    exact (Array.getElem?_eq_some_iff.mp h).2
  have hpos : 0 < marks.toList.count false :=
    List.count_pos_iff.mpr (hv ▸ List.getElem_mem hl)
  rw [missing, missing, Array.toList_setIfInBounds, List.count_set hl]
  simp only [hv, beq_self_eq_true, if_true, Bool.true_eq_false, beq_iff_eq, if_false]
  omega

/-- Marking an object that was not marked leaves one fewer. -/
theorem unmarked_insert {m : Marks} {r : Ref} (h : m.contains r = false) :
    (m.insert r).unmarked + 1 = m.unmarked := by
  obtain ⟨kind, slot⟩ := r
  have hs : (m.of kind)[slot]? = some false := by
    unfold contains at h
    cases hget : (m.of kind)[slot]? with
    | none => simp [hget] at h
    | some b => simpa [hget] using h
  cases kind <;>
    (have hm := missing_set hs
     simp only [of] at hm
     simp only [insert, unmarked]
     omega)

end Marks

/-- Marks together with the marked objects whose references are still to be followed. -/
structure Marking where
  marks : Marks := {}
  pending : List Ref := []
  deriving Repr, Inhabited, DecidableEq

namespace Marking

/-- Marks the object that a value refers to; boxed integers hold no references. -/
def visit (m : Marking) (v : Value) : Marking :=
  match v.ref? with
  | some r =>
      if m.marks.contains r then m
      else
        { marks := m.marks.insert r
          pending := if r.kind = .boxed then m.pending else r :: m.pending }
  | none => m

/-- A visit changes nothing, or leaves one object fewer without a mark. -/
theorem visit_progress (m : Marking) (v : Value) :
    m.visit v = m ∨ (m.visit v).marks.unmarked < m.marks.unmarked := by
  unfold visit
  cases v.ref? with
  | none => exact .inl rfl
  | some r =>
      by_cases h : m.marks.contains r = true
      · exact .inl (by simp [h])
      · right
        have h' : m.marks.contains r = false := by simpa using h
        have := Marks.unmarked_insert h'
        simp only [h]
        simp only [Bool.false_eq_true, if_false]
        omega

/-- Marks the objects that values refer to. -/
def visitAll (m : Marking) (vs : List Value) : Marking := vs.foldl visit m

theorem visitAll_progress (m : Marking) (vs : List Value) :
    m.visitAll vs = m ∨ (m.visitAll vs).marks.unmarked < m.marks.unmarked := by
  induction vs generalizing m with
  | nil => exact .inl rfl
  | cons v vs ih =>
      have step : m.visitAll (v :: vs) = (m.visit v).visitAll vs := rfl
      rw [step]
      rcases visit_progress m v with hv | hv
      · rw [hv]
        exact ih m
      · right
        rcases ih (m.visit v) with hr | hr
        · rw [hr]
          exact hv
        · omega

/-- Follows references until no object is pending; also the number of objects followed. -/
def drain (references : Ref → List Value) (m : Marking) : Nat × Marking :=
  match _h : m.pending with
  | [] => (0, m)
  | r :: rest =>
      let (n, done) := drain references ({ m with pending := rest }.visitAll (references r))
      (n + 1, done)
termination_by (m.marks.unmarked, m.pending.length)
decreasing_by
  rcases visitAll_progress { m with pending := rest } (references r) with hs | hs
  · rw [hs]
    apply Prod.Lex.right
    simp [_h]
  · exact Prod.Lex.left _ _ hs

end Marking

end ScriptHost
