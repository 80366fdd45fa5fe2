import ScriptHost.Proofs.Additions
import ScriptHost.Proofs.AllOrNothing
import ScriptHost.Proofs.Construction

/-! # Tables of dotted names

The tables of a dotted name are entered one after the other, and made where they are missing. A value that is no
table ends this with a conflict. It can lie only before the first table that is made, for a new table leads nowhere;
so a conflict leaves everything as it was.
-/

namespace ScriptHost

open Machine

namespace Machine

variable {m : Machine} {v : Value} {table slot : Nat} {name : String}

theorem Reachable.of_push (h : (m.push v).Reachable) (hm : m.Framed) : m.Reachable := by
  have hpopped := h.runs (leads_pop (n := 1) h.framed)
  rwa [show (m.push v).pop 1 = m from pop_push hm] at hpopped

theorem Intact.of_push (h : (m.push v).Intact) : m.Intact :=
  h.cut (s := m.stack) fun _ hw => .inl (Array.mem_push_of_mem _ hw)

/-- An entry of a table that is there, and that the roots reach, is there and reached too. -/
theorem Has.field (hr : m.Has ⟨.table, table⟩) (hi : m.Intact) (hv : m.field table name = .table slot) :
    m.Has ⟨.table, slot⟩ := by
  unfold Machine.field at hv
  split at hv
  · rename_i id _
    have hheld : m.heap.Holds ⟨.table, table⟩ ((m.heap.table table).get (.string id)) :=
      Heap.holds_get (by rw [hv]; rfl)
    have hthere := hi.heap.get table (.string id)
    rw [hv] at hheld hthere
    exact ⟨.step hr.1 hheld rfl, Heap.present_object.mp hthere⟩
  · cases hv

end Machine

namespace Act

variable {host : Host} {m m' : Machine} {conflict : Fault} {segment : String} {path rest : List String} {v : Value}
  {table slot : Nat} {id : StringId}

/-- Stores the table on top in the one below, which it replaces. -/
def enterMade (segment : String) : Act ScriptError Unit := do
  modify (·.pushAt .top)
  Op.rawSetField (.fromTop 3) segment
  Op.remove (.fromTop 2)

/-- Makes a table in the one on top, and enters it. -/
def enterNew (segment : String) : Act ScriptError Unit := do
  newTable
  enterMade segment

theorem enterMade_lawful (segment : String) : (enterMade segment).Lawful :=
  .bind (.modify fun _ => leads_pushAt) fun _ => .bind (.lift (Op.rawSetField_lawful _ _)) fun _ =>
    .lift (Op.remove_lawful _)

theorem enterNew_lawful (segment : String) : (enterNew segment).Lawful :=
  .bind newTable_lawful fun _ => enterMade_lawful segment

/-! ## One segment -/

theorem rawGetField_push (hm : m.Framed) (hs : m.strings.Sound)
    (hv : (m.intern (Utf8.encode segment)).2.field table segment = v) :
    Op.rawGetField .top segment (m.push (.table table)) =
      .ok v.kind (((m.intern (Utf8.encode segment)).2.push (.table table)).push v) := by
  rw [field_intern hs] at hv
  subst hv
  exact rawGetField_eq (topValue_push hm)

/-- A table that is there is entered. -/
theorem enterTables_found (hm : m.Framed) (hs : m.strings.Sound)
    (hv : (m.intern (Utf8.encode segment)).2.field table segment = v) (hkind : v.kind = .table) :
    enterTables conflict (segment :: rest) host (m.push (.table table)) =
      enterTables conflict rest host ((m.intern (Utf8.encode segment)).2.push v) := by
  have hread := rawGetField_push hm hs hv
  have hremove := remove_push (m := (m.intern (Utf8.encode segment)).2) (v := .table table) (w := v) hm
  rw [hkind] at hread
  rw [enterTables, bind_ok (run_lift.trans hread)]
  exact bind_ok (run_lift.trans hremove)

/-- A table that is missing is made. -/
theorem enterTables_missing (hm : m.Framed) (hs : m.strings.Sound)
    (hv : (m.intern (Utf8.encode segment)).2.field table segment = .nil) :
    enterTables conflict (segment :: rest) host (m.push (.table table)) =
      (do enterNew segment; enterTables conflict rest : Act ScriptError Unit) host
        ((m.intern (Utf8.encode segment)).2.push (.table table)) := by
  let known := (m.intern (Utf8.encode segment)).2
  have hread := rawGetField_push hm hs hv
  have hpop : ((known.push (.table table)).push .nil).pop 1 = known.push (.table table) :=
    pop_push (framed_push (m := known) hm)
  rw [enterTables, bind_ok (run_lift.trans hread), enterNew, enterMade, bind_assoc]
  dsimp only [Value.kind]
  rw [run_bind, run_modify]
  dsimp only
  rw [hpop]
  simp only [bind_assoc]
  rfl

/-- Any other value is in the way. -/
theorem enterTables_conflict (hm : m.Framed) (hs : m.strings.Sound)
    (hv : (m.intern (Utf8.encode segment)).2.field table segment = v) (hnil : v ≠ .nil)
    (hkind : v.kind ≠ .table) : enterTables conflict (segment :: rest) host (m.push (.table table)) =
      .error (.ofFault conflict) (((m.intern (Utf8.encode segment)).2.push (.table table)).push v) := by
  have hread := rawGetField_push hm hs hv
  have hnone : v.kind ≠ .nil := by
    cases v with
    | nil => exact absurd rfl hnil
    | object r =>
        obtain ⟨kind, slot⟩ := r
        cases kind <;> exact fun h => by cases h
    | foreign w =>
        cases hw : Ref.ofWord? w with
        | none => simp [Value.kind, hw]
        | some r =>
            obtain ⟨kind, slot⟩ := r
            cases kind <;> simp [Value.kind, hw, ObjectKind.valueKind]
    | bool | float | int | string | light => exact fun h => by cases h
  rw [enterTables, bind_ok (run_lift.trans hread)]
  cases hk : v.kind with
  | table => exact absurd hk hkind
  | nil => exact absurd hk hnone
  | absent | boolean | light | number | string | function | userdata => rfl

/-- What only looks like a table cannot be entered. -/
theorem enterTables_astray (conflict : Fault) (host : Host) (segment : String) (rest : List String) (hm : m.Framed)
    (hv : ∀ slot, v ≠ .table slot) : ∃ got, enterTables conflict (segment :: rest) host (m.push v) =
      .error (.ofFault (.tableExpected got)) (m.push v) := by
  have htop : (m.push v).value .top = v := topValue_push hm
  have hread : Op.rawGetField .top segment (m.push v) =
      .error (.ofFault (.tableExpected ((m.push v).describe v))) (m.push v) := by
    rw [Op.rawGetField, Op.run_bind, Op.tableAt_error (by rw [htop]; exact hv), htop]
  exact ⟨_, by rw [enterTables, run_bind, run_lift, hread]⟩

/-! ## New tables -/

/-- A store under a name, with a value that lies on top of another one. -/
theorem rawSetField_push (segment : String) {i : StackIndex} (hm : m.Framed)
    (hi : (m.push v).value ((m.push v).absolute i) = .table slot) :
    Op.rawSetField i segment (m.push v) = .ok () ((m.intern (Utf8.encode segment)).2.setEntry slot
      (.string (m.intern (Utf8.encode segment)).1) v) := by
  let known := (m.intern (Utf8.encode segment)).2
  let stored := known.setEntry slot (.string (m.intern (Utf8.encode segment)).1) v
  have hpop : (stored.push v).pop 1 = stored := pop_push (m := stored) hm
  have htop : (known.push v).topValue = v := topValue_push (m := known) hm
  rw [Op.rawSetField, Op.run_bind, Op.run_get]
  dsimp only
  rw [Op.run_bind, Op.tableAt_eq hi]
  dsimp only
  rw [Op.run_bind, Op.run_modifyGet]
  dsimp only
  rw [Op.run_bind, Op.run_modify]
  dsimp only
  rw [Op.run_modify]
  change EStateM.Result.ok () (((known.push v).setEntry slot _ (known.push v).topValue).pop 1) = _
  rw [htop]
  exact congrArg (EStateM.Result.ok ()) hpop

/-- What lies below the top value is taken out, if anything does. -/
theorem remove_push_cases (m : Machine) (v : Value) :
    (∃ stack, Framed { m with stack } ∧ Op.remove (.fromTop 2) (m.push v) = .ok () ({ m with stack }.push v)) ∨
      ∃ i m', Op.remove (.fromTop 2) (m.push v) = .error (.ofFault (.invalidIndex i)) m' := by
  by_cases hlow : m.base < m.stack.size
  · obtain ⟨stack, w, hstack⟩ := Array.eq_push_of_size_ne_zero (Nat.ne_zero_of_lt hlow)
    have hframed : Framed { m with stack } := by
      rw [hstack, Array.size_push] at hlow
      exact Nat.le_of_lt_succ hlow
    have hm' : m = ({ m with stack } : Machine).push w := by
      rw [push, ← hstack]
    refine .inl ⟨stack, hframed, ?_⟩
    rw [show m.push v = (({ m with stack } : Machine).push w).push v from congrArg (·.push v) hm']
    exact remove_push hframed
  · have hposition : (m.push v).position? (.fromTop 2) = none := by
      refine if_neg fun h => hlow ?_
      have htop : (m.push v).top = m.stack.size + 1 - m.base := congrArg (· - m.base) (Array.size_push v)
      omega
    refine .inr ⟨.fromTop 2, m.push v, ?_⟩
    rw [Op.remove, Op.run_bind, Op.position_eq, hposition]

/-- A table that leads nowhere but to itself. -/
def Leaf (m : Machine) (table : Nat) : Prop :=
  ∀ id, (m.heap.table table).get (.string id) = .nil ∨ (m.heap.table table).get (.string id) = .table table

theorem leaf_setEntry (hempty : m.heap.table table = {}) :
    Leaf (m.setEntry slot (.string id) (.table table)) table := by
  intro id'
  by_cases hslot : table = slot
  · subst hslot
    rcases m.table_setEntry table (.string id) (.table table) with hset | hset
    · rw [hset, hempty, (Table.layered_empty.set _ _).2]
      split
      · exact .inr rfl
      · exact .inl (Table.get_empty _)
    · exact .inl (by rw [hset, Table.get_empty])
  · exact .inl (by rw [table_setEntry_other hslot, hempty, Table.get_empty])

/-- A store into what is no table fails before anything is stored. -/
theorem rawSetField_astray (segment : String) {i : StackIndex} (hi : ∀ slot, m.value (m.absolute i) ≠ .table slot) :
    ∃ got, Op.rawSetField i segment m = .error (.ofFault (.tableExpected got)) m := by
  rw [Op.rawSetField, Op.run_bind, Op.run_get]
  dsimp only
  rw [Op.run_bind, Op.tableAt_error hi]
  exact ⟨_, rfl⟩

/-- A new table is empty and lies on top twice when it is to be stored. -/
theorem enterNew_made (segment : String) (hhost : host.Lawful) (hm : m.Reachable) :
    ∃ made table, Framed made ∧ made.heap.table table = {} ∧ enterNew segment host m = (do
      Op.rawSetField (.fromTop 3) segment
      Op.remove (.fromTop 2) : Act ScriptError Unit) host ((made.push (.table table)).push (.table table)) := by
  obtain ⟨m₁, hdue, hruns, -⟩ := collectIfDue_silent (ε := ScriptError) hhost hm
  have hm₁ := hm.runs hruns
  let made : Machine := { m₁ with heap := m₁.heap.newTable.2 }
  let table := m₁.heap.newTable.1
  have hmade : made.Framed := hm₁.framed
  have hnew : (newTable : Act ScriptError Unit) host m = .ok () (made.push (.table table)) := bind_ok hdue
  have hcopy : (made.push (.table table)).pushAt .top = (made.push (.table table)).push (.table table) := by
    rw [pushAt]
    exact congrArg (made.push (.table table)).push (topValue_push hmade)
  refine ⟨made, table, hmade,
    table_of_get (Heap.contents?_table.mp (Heap.allocates_newTable hm₁.heap_sound).object), ?_⟩
  rw [enterNew, bind_ok hnew, enterMade, run_bind, run_modify]
  dsimp only
  rw [hcopy]

/-- Whatever the finalizers do meanwhile, a new table leads nowhere once it is entered; and a failure to enter it is
    no conflict. -/
theorem enterNew_ended (segment : String) (hhost : host.Lawful) (hm : m.Reachable) :
    (∀ m', enterNew segment host m = .ok () m' → ∃ entered table, m' = entered.push (.table table) ∧
      entered.Reachable ∧ Leaf entered table) ∧
    ∀ e m', enterNew segment host m = .error e m' →
      (∃ got, e = .ofFault (.tableExpected got)) ∨ ∃ i, e = .ofFault (.invalidIndex i) := by
  obtain ⟨made, table, hmade, hempty, hstart⟩ := enterNew_made segment hhost hm
  by_cases htable : ∃ slot, ((made.push (.table table)).push (.table table)).value
      (((made.push (.table table)).push (.table table)).absolute (.fromTop 3)) = .table slot
  · obtain ⟨slot, hslot⟩ := htable
    have hset := rawSetField_push segment (framed_push (v := .table table) hmade) hslot
    let id := (made.intern (Utf8.encode segment)).1
    let stored := (made.intern (Utf8.encode segment)).2.setEntry slot (.string id) (.table table)
    have hend : enterNew segment host m = Op.remove (.fromTop 2) (stored.push (.table table)) := by
      rw [hstart, bind_ok (run_lift.trans hset)]
      rfl
    have hleaf : Leaf stored table := leaf_setEntry (m := (made.intern (Utf8.encode segment)).2) hempty
    rcases remove_push_cases stored (.table table) with ⟨stack, hframed, hremove⟩ | ⟨i, left, hremove⟩
    · rw [hend, hremove]
      have hreached : (({ stored with stack } : Machine).push (.table table)).Reachable :=
        hm.runs ((enterNew_lawful segment).run_ok hhost hm.framed (hend.trans hremove))
      refine ⟨fun m' h => ?_, fun e m' h => by cases h⟩
      cases h
      exact ⟨_, table, rfl, hreached.of_push hframed, hleaf⟩
    · rw [hend, hremove]
      refine ⟨fun m' h => (by cases h), fun e m' h => ?_⟩
      cases h
      exact .inr ⟨i, rfl⟩
  · obtain ⟨got, hfail⟩ := rawSetField_astray segment fun slot hslot => htable ⟨slot, hslot⟩
    rw [hstart, run_bind, run_lift, hfail]
    refine ⟨fun m' h => (by cases h), fun e m' h => ?_⟩
    cases h
    exact .inl ⟨_, rfl⟩

/-! ## Conflicts -/

/-- Other failures on the way are told from conflicts by their texts. -/
theorem ofFault_conflict_ne {other : Fault} (hfault : (∃ got, other = .tableExpected got) ∨ ∃ i, other = .invalidIndex i)
    (name : String) : ScriptError.ofFault other ≠ .ofFault (.moduleConflict name) := by
  intro h
  have htext : other.message = "name conflict for module '" ++ name ++ "'" := ScriptError.runtime.inj h
  have hhead := congrArg (fun text : String => text.toList.head?) htext
  rcases hfault with ⟨got, rfl⟩ | ⟨i, rfl⟩
  · rw [show (Fault.tableExpected got).message = "table expected, got " ++ got from rfl] at hhead
    simp [String.toList_append] at hhead
  · rw [show (Fault.invalidIndex i).message = "invalid stack index " ++ i.describe from rfl] at hhead
    simp [String.toList_append] at hhead

theorem enterNew_conflict_ne (name : String) {segment : String} {e : ScriptError} (hhost : host.Lawful)
    (hm : m.Reachable) (hrun : enterNew segment host m = .error e m') : e ≠ .ofFault (.moduleConflict name) := by
  rcases (enterNew_ended segment hhost hm).2 e m' hrun with ⟨got, rfl⟩ | ⟨i, rfl⟩
  · exact ofFault_conflict_ne (.inl ⟨got, rfl⟩) name
  · exact ofFault_conflict_ne (.inr ⟨i, rfl⟩) name

/-- Nothing that leads nowhere is in the way. -/
theorem enterTables_leaf (name : String) (hhost : host.Lawful) (hm : m.Reachable) (hleaf : Leaf m table) (m' : Machine) :
    enterTables (.moduleConflict name) path host (m.push (.table table)) ≠ .error (.ofFault (.moduleConflict name)) m' := by
  induction path generalizing m table with
  | nil => exact fun h => by cases h
  | cons segment rest ih =>
      have hs := hm.named.sound
      let known := (m.intern (Utf8.encode segment)).2
      have hknown : known.Reachable := hm.knowing [segment]
      have hfield := field_intern hs segment table
      rcases hleaf (m.intern (Utf8.encode segment)).1 with hnil | hself
      · rw [enterTables_missing hm.framed hs (hfield.trans hnil), run_bind]
        have hbefore := hknown.push (.table table)
        cases hrun : enterNew segment host (known.push (.table table)) with
        | ok u m₁ =>
            obtain ⟨entered, new, rfl, hentered, hleaf'⟩ := (enterNew_ended segment hhost hbefore).1 _ hrun
            exact ih hentered hleaf'
        | error e m₁ =>
            rintro ⟨⟩
            exact enterNew_conflict_ne name hhost hbefore hrun rfl
      · rw [enterTables_found hm.framed hs (hfield.trans hself) rfl]
        exact ih hknown hleaf

/-- A conflict comes before any table is made. -/
theorem enterTables_conflicted {name : String} (hhost : host.Lawful) (hm : m.Reachable)
    (hrun : enterTables (.moduleConflict name) path host (m.push v) = .error (.ofFault (.moduleConflict name)) m') :
    ∃ stack strings, m' = { m with stack, strings } := by
  induction path generalizing m v with
  | nil => cases hrun
  | cons segment rest ih =>
      have hs := hm.named.sound
      let known := (m.intern (Utf8.encode segment)).2
      have hknown : known.Reachable := hm.knowing [segment]
      by_cases htable : ∃ table, v = .table table
      · obtain ⟨table, rfl⟩ := htable
        by_cases hkind : (known.field table segment).kind = .table
        · rw [enterTables_found hm.framed hs rfl hkind] at hrun
          obtain ⟨stack, strings, heq⟩ := ih hknown hrun
          exact ⟨stack, strings, heq⟩
        · by_cases hnil : known.field table segment = .nil
          · rw [enterTables_missing hm.framed hs hnil, run_bind] at hrun
            have hbefore := hknown.push (.table table)
            cases hnew : enterNew segment host (known.push (.table table)) with
            | ok u m₁ =>
                rw [hnew] at hrun
                obtain ⟨entered, new, rfl, hentered, hleaf⟩ := (enterNew_ended segment hhost hbefore).1 _ hnew
                exact absurd hrun (enterTables_leaf name hhost hentered hleaf m')
            | error e m₁ =>
                rw [hnew] at hrun
                cases hrun
                exact absurd rfl (enterNew_conflict_ne name hhost hbefore hnew)
          · rw [enterTables_conflict hm.framed hs rfl hnil hkind] at hrun
            cases hrun
            exact ⟨_, _, rfl⟩
      · obtain ⟨got, hfail⟩ := enterTables_astray (.moduleConflict name) host segment rest hm.framed
          fun slot hslot => htable ⟨slot, hslot⟩
        rw [hfail] at hrun
        exact absurd (EStateM.Result.error.inj hrun).1 (ofFault_conflict_ne (.inl ⟨got, rfl⟩) name)

/-! ## Runs without finalizers -/

/-- Where nothing else happens, the new table becomes an entry of the one before. -/
theorem enterNew_eq {m₁ : Machine} (hm : m₁.Framed) (hs : m₁.strings.Sound)
    (hdue : (collectIfDue : Act ScriptError Unit) host m = .ok () (m₁.push (.table table)))
    (hid : m₁.strings.strings[id]? = some (Utf8.encode segment)) :
    enterNew segment host m = .ok () (({ m₁ with heap := m₁.heap.newTable.2 }.setEntry table (.string id)
      (.table m₁.heap.newTable.1)).push (.table m₁.heap.newTable.1)) := by
  let made : Machine := { m₁ with heap := m₁.heap.newTable.2 }
  let new : Value := .table m₁.heap.newTable.1
  have hmade : (made.push (.table table)).Framed := framed_push (m := made) hm
  have hnew : (newTable : Act ScriptError Unit) host m = .ok () ((made.push (.table table)).push new) := bind_ok hdue
  have hcopy : ((made.push (.table table)).push new).pushAt .top = ((made.push (.table table)).push new).push new := by
    rw [pushAt]
    exact congrArg ((made.push (.table table)).push new).push (topValue_push hmade)
  have hbelow : (((made.push (.table table)).push new).push new).value
      ((((made.push (.table table)).push new).push new).absolute (.fromTop 3)) = .table table := by
    have hl : Laid made.base (made.stack.toList ++ .table table :: [new, new])
        (((made.push (.table table)).push new).push new) := by
      simpa using Laid.push (v := new) (Laid.push (v := new) (Laid.push (v := .table table)
        (⟨rfl, rfl⟩ : Laid made.base made.stack.toList made)))
    rw [value_absolute]
    exact hl.value_fromTop (by rw [Array.length_toList]; exact hm) rfl
  have hset := rawSetField_push segment (framed_push (v := new) hmade) hbelow
  rw [show ((made.push (.table table)).push new).intern (Utf8.encode segment) =
    (id, (made.push (.table table)).push new) from intern_known (m := (made.push (.table table)).push new) hs hid] at hset
  rw [enterNew, bind_ok hnew, enterMade, run_bind, run_modify]
  dsimp only
  rw [hcopy, bind_ok (run_lift.trans hset)]
  exact run_lift.trans (remove_push (m := made.setEntry table (.string id) new) hm)

/-- A table that is missing is made, and all that was there stays as it was. -/
theorem enterNew_silent (hhost : host.Lawful) (hm : m.Reachable) (hi : m.Intact)
    (hr : m.Has ⟨.table, table⟩) (hid : m.strings.strings[id]? = some (Utf8.encode segment))
    (hnil : (m.heap.table table).get (.string id) = .nil)
    (hrun : enterNew segment host (m.push (.table table)) = .ok () m') (hsilent : Silent m m') :
    ∃ m₁ new, m' = m₁.push (.table new) ∧ m₁.Reachable ∧ m₁.Intact ∧ m.Augments m₁ ∧
      m₁.Has ⟨.table, new⟩ ∧ m₁.field table segment = .table new := by
  obtain ⟨left, hdue, hruns, htidied⟩ := collectIfDue_silent (ε := ScriptError) hhost (hm.push (.table table))
  have hleft := (hm.push _).runs hruns
  have hquiet : Silent (m.push (.table table)) left := by
    have hmade : (newTable : Act ScriptError Unit) host (m.push (.table table)) = .ok ()
        ({ left with heap := left.heap.newTable.2 }.push (.table left.heap.newTable.1)) := bind_ok hdue
    rw [enterNew, bind_ok hmade] at hrun
    have hlast := (enterMade_lawful segment).run_ok hhost (framed_push
      (m := { left with heap := left.heap.newTable.2 }) hleft.framed) hrun
    exact (hsilent.split hruns.log hlast.log).1
  have htidied := htidied hquiet
  have hsame : left.heap.contents? ⟨.table, table⟩ = m.heap.contents? ⟨.table, table⟩ :=
    htidied.kept (htidied.retains (.start (.stack Array.mem_push_self) rfl))
  obtain ⟨m₁, rfl, haugments⟩ := Augments.of_tidied htidied hruns.log
  have hframed : m₁.Framed := by
    obtain ⟨heap, strings, events, rfl⟩ := haugments.others
    exact hm.framed
  have hi₁ : m₁.Intact := (htidied.intact (hi.push (Heap.present_object.mpr hr.2))).of_push
  have hm₁ := hleft.of_push hframed
  -- The table before is untouched when the new one is stored.
  let made : Machine := { m₁ with heap := m₁.heap.newTable.2 }
  let new := m₁.heap.newTable.1
  have halloc := Heap.allocates_newTable hm₁.heap_sound
  have hthere : made.heap.contents? ⟨.table, table⟩ = m.heap.contents? ⟨.table, table⟩ := by
    refine (halloc.keeps ?_).trans hsame
    rw [show m₁.heap.contents? ⟨.table, table⟩ = _ from hsame]
    exact hr.2
  have hnil' : (made.heap.table table).get (.string id) = .nil := by
    rw [Heap.table_congr hthere, hnil]
  have hid₁ := haugments.strings id _ hid
  have hmade : made.Reachable := hm₁.runs (leads_heap .newTable hm₁.framed)
  have hstored : m.Augments (made.setEntry table (.string id) (.table new)) :=
    (haugments.trans (.newTable hm₁.heap_sound)).trans (.setEntry hnil')
  have hgain : made.Intact := (hi₁.gain hi₁.heap.gains_newTable).of_push
  have hnew : made.heap.Present (.table new) := by
    rw [Heap.present_object, halloc.object]
    exact Option.some_ne_none _
  have hchange : made.heap.Change (made.heap.modifyTable table fun t => t.set (.string id) (.table new)) := .entry ..
  have hintact : (made.setEntry table (.string id) (.table new)).Intact :=
    hgain.change hchange (hgain.heap.setEntry (fun w hw => by cases hw) hnew)
  have hfield : (made.setEntry table (.string id) (.table new)).field table segment = .table new := by
    rw [field_setEntry hmade (by rw [hthere]; exact hr.2) hid₁ ⟨id, hid₁⟩, if_pos ⟨rfl, rfl⟩]
  have hentered := enterNew_eq hm₁.framed hm₁.named.sound hdue hid₁
  rw [hrun] at hentered
  cases hentered
  refine ⟨_, new, rfl, hmade.setEntry, hintact, hstored, ?_, hfield⟩
  have hhas : (made.setEntry table (.string id) (.table new)).Has ⟨.table, table⟩ :=
    ⟨hstored.reached hr.1, hchange.present hmade.heap_sound (v := .table table) (Heap.present_object.mpr
      (by rw [hthere]; exact hr.2)) _ rfl⟩
  exact hhas.field hintact hfield

/-- What is entered at the end is what the segments lead to then. -/
theorem enterTables_silent (hhost : host.Lawful) (hm : m.Reachable) (hi : m.Intact) (hr : m.Has ⟨.table, table⟩)
    (hrun : enterTables conflict path host (m.push (.table table)) = .ok () m') (hsilent : Silent m m') :
    ∃ m₁ v, m' = m₁.push v ∧ v.kind = .table ∧ m₁.strings.Sound ∧ m.Augments m₁ ∧ (∀ name ∈ path, m₁.Knows name) ∧
      m₁.walk (.table table) path = v := by
  induction path generalizing m table with
  | nil =>
      cases hrun
      exact ⟨m, .table table, rfl, rfl, hm.named.sound, .refl m, List.forall_mem_nil _, rfl⟩
  | cons segment rest ih =>
      have hs := hm.named.sound
      let known := (m.intern (Utf8.encode segment)).2
      have hm' : known.Reachable := hm.knowing [segment]
      have hs' := hm'.named.sound
      have hi' : known.Intact := { hi with }
      have hknows : known.Knows segment := knows_intern
      have haugments : m.Augments known := .intern m _
      have hr' : known.Has ⟨.table, table⟩ := ⟨haugments.reached hr.1, hr.2⟩
      by_cases hkind : (known.field table segment).kind = .table
      · rw [enterTables_found hm.framed hs rfl hkind] at hrun
        have hnil : known.field table segment ≠ .nil := fun h => by rw [h] at hkind; cases hkind
        by_cases htable : ∃ slot, known.field table segment = .table slot
        · obtain ⟨slot, hslot⟩ := htable
          rw [hslot] at hrun
          obtain ⟨m₁, v, rfl, hv, hs₁, haugments₁, hrest, hwalk⟩ := ih hm' hi' (hr'.field hi' hslot) hrun hsilent
          exact ⟨m₁, v, rfl, hv, hs₁, haugments.trans haugments₁,
            haugments₁.walk_through hs' hs₁ hknows hr'.1 hslot (Value.noConfusion ·) hrest hwalk⟩
        · cases rest with
          | nil =>
              cases hrun
              exact ⟨known, _, rfl, hkind, hs', haugments,
                (Augments.refl known).walk_through hs' hs' hknows hr'.1 rfl hnil (List.forall_mem_nil _) rfl⟩
          | cons next rest =>
              obtain ⟨got, hfail⟩ := enterTables_astray conflict host next rest (v := known.field table segment)
                hm'.framed fun slot hslot => htable ⟨slot, hslot⟩
              rw [hfail] at hrun
              cases hrun
      · by_cases hnil : known.field table segment = .nil
        · rw [enterTables_missing hm.framed hs hnil] at hrun
          rw [run_bind] at hrun
          cases hnew : enterNew segment host (known.push (.table table)) with
          | error e m₁ =>
              rw [hnew] at hrun
              cases hrun
          | ok u left =>
              rw [hnew] at hrun
              have hfirst := (enterNew_lawful segment).run_ok hhost (framed_push hm'.framed) hnew
              have hlast := (enterTables_lawful conflict rest).run_ok hhost
                ((hm'.push _).runs hfirst).framed hrun
              obtain ⟨hquiet, hquiet'⟩ : Silent (known.push (.table table)) left ∧ Silent left m' :=
                Silent.split hsilent hfirst.log hlast.log
              have hgone := (field_intern hs segment table).symm.trans hnil
              obtain ⟨entered, new, rfl, hentered, hintact, hadded, hhas, hfield⟩ := enterNew_silent hhost hm' hi' hr'
                StringPool.intern_found hgone hnew hquiet
              obtain ⟨m₁, v, rfl, hv, hs₁, haugments₁, hrest, hwalk⟩ := ih hentered hintact hhas hrun hquiet'
              exact ⟨m₁, v, rfl, hv, hs₁, (haugments.trans hadded).trans haugments₁,
                haugments₁.walk_through hentered.named.sound hs₁ (hknows.extends hadded.strings)
                  (hadded.reached hr'.1) hfield (Value.noConfusion ·) hrest hwalk⟩
        · rw [enterTables_conflict hm.framed hs rfl hnil hkind] at hrun
          cases hrun

/-- Where all tables are there, nothing is made. -/
theorem enterTables_walk (host : Host) (hm : m.Framed) (hs : m.strings.Sound) (hknown : ∀ name ∈ path, m.Knows name)
    (hwalk : m.walk (.table table) path = v) (hkind : v.kind = .table) :
    enterTables conflict path host (m.push (.table table)) = .ok () (m.push v) := by
  induction path generalizing table with
  | nil =>
      obtain rfl : .table table = v := hwalk
      rfl
  | cons segment rest ih =>
      have hsame : (m.intern (Utf8.encode segment)).2 = m := intern_knows hs (hknown segment List.mem_cons_self)
      have hfound : ∀ {w}, m.field table segment = w → w.kind = .table →
          enterTables conflict (segment :: rest) host (m.push (.table table)) =
            enterTables conflict rest host (m.push w) := fun {w} hw hk => by
        have hstep : enterTables conflict (segment :: rest) host (m.push (.table table)) =
            enterTables conflict rest host ((m.intern (Utf8.encode segment)).2.push w) :=
          enterTables_found hm hs (by rw [hsame]; exact hw) hk
        rwa [hsame] at hstep
      rw [walk] at hwalk
      by_cases htable : ∃ slot, m.field table segment = .table slot
      · obtain ⟨slot, hslot⟩ := htable
        rw [hfound hslot rfl]
        exact ih (fun name hname => hknown name (List.mem_cons_of_mem _ hname)) (by rw [← hslot]; exact hwalk)
      · cases rest with
        | nil =>
            obtain rfl : m.field table segment = v := hwalk
            rw [hfound rfl hkind]
            rfl
        | cons next rest =>
            rw [walk_of_ne fun slot hslot => htable ⟨slot, hslot⟩] at hwalk
            subst hwalk
            cases hkind

theorem findTable_eq {name : String} : findTable name host m =
    match enterTables (.moduleConflict name) (Path.segments name) host (m.push (.table m.globals)) with
    | .ok () m' => .ok () m'
    | .error e m' => .error e (m'.setTop m.top) := by
  have hpush : m.pushAt .environment = m.push (.table m.globals) := rfl
  rw [findTable, run_bind, run_get]
  dsimp only
  rw [run_bind, run_modify]
  dsimp only
  rw [hpush, run_bind, run_attempt]
  cases enterTables (.moduleConflict name) (Path.segments name) host (m.push (.table m.globals)) <;> rfl

end Act

namespace Machine

open Act

variable {host : Host} {m : Machine}

/-- The table of a dotted name is found in every state. If a value on the way is no table, nothing has changed
    but that more names are known, whatever finalizers do meanwhile. If no finalizer is entered, then what is
    pushed is what the segments lead to afterwards. No entry with a value has changed in a table that no cycle
    missed, and none missed what the roots reached. From then on the same is pushed again, and nothing else
    happens. -/
theorem Reachable.global_table (hm : m.Reachable) (hi : m.Intact) (hhost : host.Lawful) (name : String) :
    (∀ m', findTable name host m = .error (.ofFault (.moduleConflict name)) m' → ∃ strings, m' = { m with strings }) ∧
    ∀ m', findTable name host m = .ok () m' → Silent m m' →
      ∃ v, v.kind = .table ∧ m'.stack = m.stack.push v ∧ m'.walk (.table m'.globals) (Path.segments name) = v ∧
        (∀ r, m.Reached r → Retains (.object r) m m') ∧
        (∀ slot key, m.heap.contents? ⟨.table, slot⟩ ≠ none → Retains (.table slot) m m' →
          ((m.heap.table slot).get key).isNil = false →
            (m'.heap.table slot).get key = (m.heap.table slot).get key) ∧
        ∀ host', findTable name host' m' = .ok () (m'.push v) := by
  refine ⟨fun m' hrun => ?_, fun m' hrun hsilent => ?_⟩
  · have hfound := hrun
    rw [findTable_eq] at hrun
    split at hrun
    · cases hrun
    · rename_i e left hentered
      cases hrun
      obtain ⟨stack, strings, rfl⟩ := enterTables_conflicted hhost hm hentered
      obtain ⟨stack', htop⟩ := ({ m with stack, strings } : Machine).setTop_eq m.top
      have hkept := (findTable_spec (b := m.base) name m.stack.toList).error hhost hm.framed ⟨rfl, rfl⟩ hfound
        (by rw [htop])
      rw [htop] at hkept ⊢
      obtain rfl : stack' = m.stack := Array.toList_inj.mp hkept.stack
      exact ⟨strings, rfl⟩
  · rw [findTable_eq] at hrun
    split at hrun
    · rename_i left hentered
      cases hrun
      obtain ⟨m₁, v, rfl, hv, hs, haugments, hknown, hwalk⟩ := enterTables_silent hhost hm hi
        ⟨.start .globals rfl, Heap.present_object.mp hi.globals⟩ hentered hsilent
      have hframed : m₁.Framed ∧ m₁.globals = m.globals ∧ m₁.stack = m.stack := by
        obtain ⟨heap, strings, events, rfl⟩ := haugments.others
        exact ⟨hm.framed, rfl, rfl⟩
      obtain ⟨hframed, hglobals, hstack⟩ := hframed
      have hwalk' : (m₁.push v).walk (.table (m₁.push v).globals) (Path.segments name) = v := by
        rw [walk_push, ← hwalk]
        exact congrArg (fun globals => m₁.walk (.table globals) (Path.segments name)) hglobals
      refine ⟨v, hv, congrArg (·.push v) hstack, hwalk', fun r hr => haugments.retains hr,
        fun slot key hslot hretains hvalue => (haugments.adds hslot hretains).get hvalue, fun host' => ?_⟩
      rw [findTable_eq, enterTables_walk host' (framed_push hframed) hs hknown hwalk' hv]
    · cases hrun

/-- Of two tables the second is missing. -/
theorem findTable_below {m' : Machine} (inner : Nat) (hm : m.Reachable)
    (hthere : (m.heap.table m.globals).get (.string Metafield.call.id) = .table inner)
    (hmissing : (m.heap.table inner).get (.string Metafield.index.id) = .nil)
    (hnew : enterNew "__index" host (m.push (.table inner)) = .ok () m') :
    findTable "__call.__index" host m = .ok () m' := by
  have hs := hm.named.sound
  have hcall : (m.intern (Utf8.encode "__call")).2 = m := intern_knows hs ⟨_, hm.named.names .call⟩
  have hindex : (m.intern (Utf8.encode "__index")).2 = m := intern_knows hs ⟨_, hm.named.names .index⟩
  have hname : Path.segments "__call.__index" = ["__call", "__index"] := by decide +kernel
  have hfirst : (m.intern (Utf8.encode "__call")).2.field m.globals "__call" = .table inner := by
    rw [hcall]
    exact (field_eq hs (hm.named.names .call) _).trans hthere
  have hsecond : (m.intern (Utf8.encode "__index")).2.field inner "__index" = .nil := by
    rw [hindex]
    exact (field_eq hs (hm.named.names .index) _).trans hmissing
  rw [findTable_eq, hname, enterTables_found hm.framed hs hfirst rfl, hcall, enterTables_missing hm.framed hs hsecond,
    hindex, bind_ok hnew]
  rfl

theorem furnished_global_table : ∃ m', findTable "__call.__index" (Programs.host [] 1) furnished = .ok () m' ∧
    m'.stack = #[.table 3] ∧ m'.walk (.table m'.globals) (Path.segments "__call.__index") = .table 3 ∧
    findTable "__call.__index" (Programs.host [] 1) m' = .ok () (m'.push (.table 3)) := by
  obtain ⟨hm, hi⟩ := furnished_sound
  have hnew : enterNew "__index" (Programs.host [] 1) (furnished.push (.table 2)) = _ :=
    enterNew_eq hm.framed hm.named.sound rfl (hm.named.names .index)
  have hrun := findTable_below 2 hm (by decide) (by decide) hnew
  obtain ⟨v, -, hstack, hwalk, -, -, hagain⟩ :=
    (hm.global_table hi (Programs.host_lawful 1) "__call.__index").2 _ hrun rfl
  obtain rfl : Value.table 3 = v := (Array.push_eq_push.mp hstack).1
  exact ⟨_, hrun, rfl, hwalk, hagain _⟩

/-! ## A finalizer that changes the globals -/

/-- A table of the globals lies on the stack. The next allocation starts a cycle, and that finds a userdata that
    was dropped. -/
def undermined : Machine := tabled.setEntry 1 (.string Metafield.call.id) (.table 3)

/-- Every function puts a number in place of the table. -/
def undermining : Host where
  enter _ := do
    modify (·.setEntry 1 (.string Metafield.call.id) (.int 1))
    pure 0

theorem undermining_lawful : undermining.Lawful := fun _ =>
  .bind (.modify fun _ => leads_setEntry) fun _ => .pure 0

theorem undermined_reachable : undermined.Reachable :=
  ((interrupted_reachable.moves (.single (.change (.heap _ .newTable)))).push _).setEntry

theorem undermined_intact : undermined.Intact := by
  have hm : (create { collectInterval := some 6 }).Intact := intact_create _
  have hmade := hm.heap.gains_newTable.intact hm.heap
  let f : Closure Native := ⟨⟨.code (.program "f"), .host⟩, #[]⟩
  have hfunction := (hmade.gains_newFunction (f := f) (by simp [f])).intact hmade
  have hstored : Heap.Intact (Heap.modifyTable _ 2 fun t => t.set (.string Metafield.finalizer.id) (.function 0)) :=
    hfunction.setEntry (fun _ hw => by cases hw) (Heap.present_object.mpr (Option.some_ne_none _))
  have huserdata := (hstored.gains_newUserdata 0).intact hstored
  have hheap : Heap.Intact (Heap.modifyUserdata _ 0 fun u => { u with metatable := some 2 }) :=
    huserdata.setUserMeta fun slot hslot => by
      cases hslot
      exact Heap.present_object.mpr (Option.some_ne_none _)
  have hinterrupted : interrupted.Intact := Intact.push (v := .int 1)
    (((((hm.change .newTable hmade).change (.newFunction _) hfunction).change (.entry ..) hstored).change
      (.newUserdata 0) huserdata).change (.userMeta 0 (some 2)) hheap) fun _ hv => by cases hv
  have htabled : tabled.Intact := hinterrupted.gain hinterrupted.heap.gains_newTable
  refine htabled.change (.entry ..) (htabled.heap.setEntry (fun _ hw => by cases hw) ?_)
  exact Heap.present_object.mpr (Option.some_ne_none _)

/-- The machine when the missing table is about to be made. -/
def asking : Machine := undermined.push (.table 3)

theorem asking_due : asking.Due 0 := by
  refine ⟨_, rfl, fun hr => ?_, rfl, by decide⟩
  have hmem := hr.mem [⟨.table, 0⟩, ⟨.table, 1⟩, ⟨.table, 3⟩] (by decide) (by decide)
  simp at hmem

theorem asking_queue : asking.cycle.1 = [0] := cycle_queue_singleton asking_due userdata?_midPair

/-- The cycle finds the userdata, and its finalizer takes the table from the globals. -/
theorem collectIfDue_asking : ∃ heap events, (collectIfDue : Act ScriptError Unit) undermining asking =
    .ok () { asking with heap, events } ∧ (heap.table 1).get (.string Metafield.call.id) = .int 1 := by
  have hm : asking.Reachable := undermined_reachable.push _
  have hsound := hm.heap_sound
  have hroot : asking.Reached ⟨.table, 1⟩ := .start .globals rfl
  have hqueued : asking.heap.Reaches (fun v => ∃ slot, asking.Due slot ∧ v = .userdata slot) ⟨.userdata, 0⟩ :=
    .start ⟨0, asking_due, rfl⟩ rfl
  have hmeta : asking.heap.Reaches (fun v => ∃ slot, asking.Due slot ∧ v = .userdata slot) ⟨.table, 2⟩ :=
    hqueued.step (.userMeta rfl rfl) rfl
  have hheld : Value.function 0 ∈ asking.heap.references ⟨.table, 2⟩ := by decide
  have hsame := fun r hr => contents?_cycle_of_kept (r := r) hsound hr
  have hglobals := Heap.contents?_table.mp ((hsame ⟨.table, 1⟩ (.inl hroot)).trans rfl)
  have huserdata := userdata?_cycle_of_kept hsound rfl (.inr hqueued)
  have htable := Heap.contents?_table.mp ((hsame ⟨.table, 2⟩ (.inr hmeta)).trans rfl)
  have hfunction := Heap.contents?_function.mp ((hsame ⟨.function, 0⟩
    (.inr (hmeta.step (Heap.mem_references.mp hheld) rfl))).trans rfl)
  obtain ⟨m', hrun, hcollect⟩ := collect_open (ε := ScriptError) (m := asking) undermining rfl
  obtain ⟨heap, events, heq⟩ := asking.cycle_eq
  rw [asking_queue, heq] at hrun
  rw [heq] at huserdata htable hfunction hglobals
  let m : Machine := { asking with heap, events }
  obtain ⟨events', hturned⟩ := turned_eq m 0
  let undone : Heap Native := (heap.setFinalized 0).modifyTable 1 fun t => t.set (.string Metafield.call.id) (.int 1)
  have hturn : (finalize 0 : Act ScriptError Unit) undermining m = .ok () { m with heap := undone, events := events' } := by
    rw [finalize_called (m := m) (n := 0) undermining_lawful hm.framed
      (show asking.depth < asking.limits.callDepth by decide)
      (show asking.stack.size + 2 ≤ asking.limits.stackSlots by decide)
      (metafield_beginTurn huserdata rfl htable rfl) hfunction rfl (by rw [hturned]; rfl), hturned]
    rfl
  have hleft := (bind_ok hturn).symm.trans hrun
  cases hleft
  refine ⟨undone, events', bind_ok hcollect, ?_⟩
  have hstored : (setEntry { m with heap := heap.setFinalized 0 } 1 (.string Metafield.call.id) (.int 1)).heap.table 1 = _ :=
    table_setEntry_get hglobals
  rw [show undone.table 1 = _ from hstored]
  decide

/-- A table is made where no segment leads: a finalizer runs when it is made, and changes the globals on the way. -/
theorem undermined_global_table : undermined.Reachable ∧ undermined.Intact ∧ undermining.Lawful ∧
    (undermined.heap.table 1).get (.string Metafield.call.id) = .table 3 ∧
    ∃ m' table, findTable "__call.__index" undermining undermined = .ok () m' ∧
      m'.stack = undermined.stack.push (.table table) ∧
      (m'.heap.table 1).get (.string Metafield.call.id) = .int 1 ∧
      m'.walk (.table m'.globals) (Path.segments "__call.__index") = .nil := by
  have hm := undermined_reachable
  obtain ⟨heap, events, hdue, hchanged⟩ := collectIfDue_asking
  let left : Machine := { undermined with heap, events }
  let made : Machine := { left with heap := heap.newTable.2 }
  have hnew : enterNew "__index" undermining asking = .ok () ((made.setEntry 3 (.string Metafield.index.id)
      (.table heap.newTable.1)).push (.table heap.newTable.1)) :=
    enterNew_eq (m := asking) hm.framed hm.named.sound hdue (hm.named.names .index)
  have hrun := findTable_below 3 hm (by decide) (by decide) hnew
  have hsound : heap.Sound := ((hm.push (.table 3)).runs (collectIfDue_lawful.run_ok undermining_lawful
    (framed_push hm.framed) hdue)).heap_sound
  have hthere : heap.contents? ⟨.table, 1⟩ ≠ none := fun hnone => by
    rw [Heap.contents?, Option.map_eq_none_iff] at hnone
    rw [Heap.table, hnone] at hchanged
    cases hchanged
  have hkept : ((made.setEntry 3 (.string Metafield.index.id) (.table heap.newTable.1)).heap.table 1).get
      (.string Metafield.call.id) = .int 1 := by
    rw [table_setEntry_other (by decide), Heap.table_congr ((Heap.allocates_newTable hsound).keeps hthere)]
    exact hchanged
  refine ⟨hm, undermined_intact, undermining_lawful, by decide, _, _, hrun, rfl, hkept, ?_⟩
  have hfield : (made.setEntry 3 (.string Metafield.index.id) (.table heap.newTable.1)).field 1 Metafield.call.text = .int 1 :=
    (field_eq (m := made.setEntry 3 _ _) hm.named.sound (hm.named.names .call) 1).trans hkept
  rw [walk_push, show Path.segments "__call.__index" = ["__call", "__index"] by decide +kernel]
  change walk _ (field _ 1 Metafield.call.text) ["__index"] = .nil
  rw [hfield]
  rfl

end Machine

end ScriptHost
