import ScriptHost.Proofs.Lawful.Stack

/-! # Raw tables and checked arguments

Reading and writing entries without metamethods, working on sequences and taking arguments is lawful.
-/

namespace ScriptHost.Op

open Machine

variable {i : StackIndex} {n : Nat} {v : Value} {name : String}

/-! ## Entries -/

theorem tableAt_lawful (i : StackIndex) : (tableAt i).Lawful :=
  .bind .get fun m => by
    split
    · exact .pure _
    · exact .fail _

theorem tableAt_eq {m : Machine} {slot : Nat} (h : m.value i = .table slot) :
    tableAt i m = .ok slot m := by
  rw [tableAt, run_bind, run_get]
  simp only [h]
  rfl

/-- Only tables are taken for tables. -/
theorem tableAt_error {m : Machine} (h : ∀ slot, m.value i ≠ .table slot) :
    tableAt i m = .error (.ofFault (.tableExpected (m.describe (m.value i)))) m := by
  rw [tableAt, run_bind, run_get]
  cases hv : m.value i with
  | object r =>
      obtain ⟨kind, slot⟩ := r
      cases kind with
      | table => exact absurd hv (h slot)
      | function | userdata | boxed => simp only [hv]; rfl
  | nil | bool | int | float | string | light | foreign => simp only [hv]; rfl

theorem rawStore_lawful (slot : Nat) (key v : Value) : (rawStore slot key v).Lawful :=
  .bind .get fun m => by
    split
    · exact .fail _
    · exact .modify fun m => leads_setEntry
    · exact .fail _

theorem rawGet_lawful (i : StackIndex) : (rawGet i).Lawful :=
  .bind .get fun _ => .bind (tableAt_lawful _) fun _ => .bind .get fun _ =>
    .bind (.modify fun _ => leads_pop) fun _ => .bind (.modify fun _ => leads_push) fun _ => .pure _

theorem rawSet_lawful (i : StackIndex) : (rawSet i).Lawful :=
  .bind .get fun _ => .bind (tableAt_lawful _) fun _ => .bind .get fun _ =>
    .bind (rawStore_lawful _ _ _) fun _ => .modify fun _ => leads_pop

theorem rawGetInt_lawful (i : StackIndex) (n : Int) : (rawGetInt i n).Lawful :=
  .bind (tableAt_lawful _) fun _ => .bind .get fun _ =>
    .bind (.modify fun _ => leads_push) fun _ => .pure _

theorem rawSetInt_lawful (i : StackIndex) (n : Int) : (rawSetInt i n).Lawful :=
  .bind .get fun _ => .bind (tableAt_lawful _) fun _ =>
    .bind (.modify fun _ => leads_setEntry) fun _ => .modify fun _ => leads_pop

theorem rawGetField_lawful (i : StackIndex) (name : String) : (rawGetField i name).Lawful :=
  .bind (tableAt_lawful _) fun _ => .bind (.modifyGet fun _ => leads_intern) fun _ =>
    .bind .get fun _ => .bind (.modify fun _ => leads_push) fun _ => .pure _

theorem rawSetField_lawful (i : StackIndex) (name : String) : (rawSetField i name).Lawful :=
  .bind .get fun _ => .bind (tableAt_lawful _) fun _ =>
    .bind (.modifyGet fun _ => leads_intern) fun _ =>
      .bind (.modify fun _ => leads_setEntry) fun _ => .modify fun _ => leads_pop

theorem next_lawful (i : StackIndex) : (next i).Lawful :=
  .bind .get fun _ => .bind (tableAt_lawful _) fun _ => .bind .get fun _ =>
    .bind (.modify fun _ => leads_pop) fun _ => .bind .get fun _ => by
      dsimp only
      split
      · exact .bind (.modifyGet fun _ => leads_keyValue) fun _ =>
          .bind (.modify fun _ => leads_push) fun _ =>
            .bind (.modify fun _ => leads_push) fun _ => .pure _
      · exact .pure _
      · exact .fail _

theorem setMetatable_lawful (i : StackIndex) : (setMetatable i).Lawful := by
  refine .bind .get fun m => ?_
  have htable : ∀ (slot : Nat) (metatable : Option Nat), (do
      modify fun m => { m with heap := m.heap.modifyTable slot fun t => { t with metatable } }
      modify (·.pop 1) : Op ScriptError Unit).Lawful := fun _ _ =>
    .bind (.modify fun _ => leads_heap (.tableMeta _ _)) fun _ => .modify fun _ => leads_pop
  have huserdata : ∀ (slot : Nat) (metatable : Option Nat), (do
      modify fun m => { m with heap := m.heap.modifyUserdata slot fun u => { u with metatable } }
      modify (·.pop 1) : Op ScriptError Unit).Lawful := fun _ _ =>
    .bind (.modify fun _ => leads_heap (.userMeta _ _)) fun _ => .modify fun _ => leads_pop
  dsimp only
  have hother : ∀ f : Fault, (do
      fail f
      modify (·.pop 1) : Op ScriptError Unit).Lawful := fun _ =>
    .bind (.fail _) fun _ => .modify fun _ => leads_pop
  -- The metatable and the value that gets it are told apart together.
  split <;> split
  · exact .bind (.pure _) fun _ => htable _ _
  · exact .bind (.pure _) fun _ => huserdata _ _
  · exact .bind (.pure _) fun _ => hother _
  · exact .bind (.pure _) fun _ => htable _ _
  · exact .bind (.pure _) fun _ => huserdata _ _
  · exact .bind (.pure _) fun _ => hother _
  · exact .bind (.fail _) fun _ => htable _ _
  · exact .bind (.fail _) fun _ => huserdata _ _
  · exact .bind (.fail _) fun _ => hother _

theorem getRegistered_lawful (name : String) : (getRegistered name).Lawful :=
  rawGetField_lawful _ _

theorem setUserValue_lawful (i : StackIndex) : (setUserValue i).Lawful :=
  .bind .get fun _ => by
    split
    · exact .bind (.modify fun _ => leads_heap (.userValue _ _)) fun _ => .modify fun _ => leads_pop
    · exact .fail _

/-! ## Sequences -/

theorem append_lawful (i : StackIndex) : (append i).Lawful :=
  .bind .get fun _ => rawSetInt_lawful _ _

theorem removeLast_lawful (i : StackIndex) (keep : Bool) : (removeLast i keep).Lawful := by
  refine .bind .get fun m => ?_
  have hrest : ∀ {α : Type} (_ : α), (do
      modify (·.push .nil)
      rawSetInt (m.absolute i) (m.lengthAt (m.absolute i)) : Op ScriptError Unit).Lawful :=
    fun _ => .bind (.modify fun _ => leads_push) fun _ => rawSetInt_lawful _ _
  dsimp only
  split
  · exact .bind (rawGetInt_lawful _ _) hrest
  · exact hrest ()

theorem last_lawful (i : StackIndex) : (last i).Lawful :=
  .bind .get fun _ => rawGetInt_lawful _ _

theorem pushEntries_lawful (i : StackIndex) (key : Int) (count : Nat) :
    (pushEntries i key count).Lawful := by
  induction count generalizing key with
  | zero => exact .pure _
  | succ count ih => exact .bind (rawGetInt_lawful _ _) fun _ => ih _

theorem unpack_lawful (i : StackIndex) (first final : Int) : (unpack i first final).Lawful := by
  refine .bind .get fun m => ?_
  dsimp only
  split
  · exact .pure _
  · split
    · exact .bind (.throw _) fun _ => .bind (pushEntries_lawful _ _ _) fun _ => .pure _
    · exact .bind (pushEntries_lawful _ _ _) fun _ => .pure _

/-! ## Arguments -/

theorem failArgument_lawful {α : Type} (n : Nat) (expected : String) :
    (failArgument n expected : Op ScriptError α).Lawful := .bind .get fun _ => .fail _

theorem checkAny_lawful (n : Nat) : (checkAny n).Lawful :=
  .bind .get fun _ => by
    split
    · exact .fail _
    · exact .pure _

theorem checkInt_lawful (n : Nat) : (checkInt n).Lawful :=
  .bind .get fun _ => by
    dsimp only
    split
    · exact .pure _
    · split
      · exact .fail _
      · exact failArgument_lawful _ _

theorem checkNumber_lawful (n : Nat) : (checkNumber n).Lawful :=
  .bind .get fun _ => by
    split
    · exact .pure _
    · exact failArgument_lawful _ _

theorem checkBool_lawful (n : Nat) : (checkBool n).Lawful :=
  .bind .get fun _ => by
    split
    · exact .pure _
    · exact failArgument_lawful _ _

/-- Taking the string at an index, or failing where there is none, is lawful. -/
theorem demandString_lawful (i : StackIndex) {missing : Op ScriptError StringId}
    (hmissing : missing.Lawful) : (do
      match ← modifyGet (·.stringAt i) with
      | some id => pure id
      | none => missing : Op ScriptError StringId).Lawful := by
  refine .bind (.modifyGet fun _ => leads_stringAt) fun id => ?_
  cases id with
  | some id => exact .pure _
  | none => exact hmissing

-- Stated for any index first: an argument's own index is never computed with.
theorem checkString_lawful (n : Nat) : (checkString n).Lawful :=
  demandString_lawful _ (failArgument_lawful _ _)

theorem checkText_lawful (n : Nat) : (checkText n).Lawful :=
  .bind (checkString_lawful n) fun _ => .bind .get fun _ => .pure _

theorem checkKind_lawful (n : Nat) (kind : ValueKind) : (checkKind n kind).Lawful :=
  .bind .get fun _ => by
    split
    · exact failArgument_lawful _ _
    · exact .pure _

theorem checkUserdata_lawful (n : Nat) (name : String) : (checkUserdata n name).Lawful :=
  .bind .get fun _ => by
    split
    · exact .pure _
    · exact failArgument_lawful _ _

theorem checkAddress_lawful (n : Nat) : (checkAddress n).Lawful :=
  .bind .get fun _ => by
    split
    · exact .pure _
    · exact .pure _
    · exact .fail _

end ScriptHost.Op
