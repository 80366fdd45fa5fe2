import ScriptHost.Proofs.Lawful.Class

/-! # Handles and hooks

Handles read and write native memory beside the calls that tell instances apart.
-/

namespace ScriptHost

open Machine

namespace Machine

variable {m : Machine} {a : Address} {t : BoundType} {value : Int}

theorem leads_writeBytes {bytes : Bytes} : Leads m (m.writeBytes a bytes) := leads_heap (.write _ _)

theorem leads_allocate {owner : BlockOwner} {bytes : Array UInt8} :
    Leads m (m.allocate owner bytes).2 := leads_heap (.allocate _ _)

theorem leads_newCounted {owner : BlockOwner} : Leads m (m.newCounted owner value).2 :=
  leads_allocate

theorem leads_storeCounted {c : Counted} : Leads m (m.storeCounted a c) := leads_writeBytes

theorem leads_recordDrop : Leads m (m.recordDrop t value) := (Change.host _ _ _ _ _).leads

theorem leads_retain : Leads m (m.retain a) := leads_storeCounted

theorem leads_release : Leads m (m.release a) := by
  have hstore : Leads m (m.storeCounted a (m.counted a).released) := leads_storeCounted
  unfold release
  dsimp only
  split
  · exact hstore.trans (Change.host _ _ _ _ _).leads
  · exact hstore

end Machine

namespace Op

theorem blockAt_lawful (i : StackIndex) : (blockAt i).Lawful := by
  refine .bind .get fun m => ?_
  cases m.address? (m.value i) with
  | some a => exact .pure _
  | none =>
      cases i with
      | fromBottom n => exact failArgument_lawful _ _
      | fromTop | registry | upvalue | environment => exact .fail _

theorem boxTarget_lawful (i : StackIndex) : (boxTarget i).Lawful :=
  .bind (blockAt_lawful i) fun _ => .bind .get fun _ => .pure _

theorem setBoxTarget_lawful (i : StackIndex) (target : Address) : (setBoxTarget i target).Lawful :=
  .bind (blockAt_lawful i) fun _ => .modify fun _ => leads_writeBytes

theorem setSharedTarget_lawful (i : StackIndex) (target : Address) (replacing : Bool) :
    (setSharedTarget i target replacing).Lawful := by
  refine .bind (boxTarget_lawful i) fun old => ?_
  have hset : ∀ {α : Type} (_ : α), (setBoxTarget i target).Lawful :=
    fun _ => setBoxTarget_lawful i target
  have hrelease : ∀ {α : Type} (_ : α), (do
      if replacing && old ≠ 0 then modify (·.release old)
      setBoxTarget i target : Op ScriptError Unit).Lawful := by
    intro α _
    dsimp only
    split
    · exact .bind (.modify fun _ => leads_release) hset
    · exact hset ()
  dsimp only
  split
  · exact .bind (.modify fun _ => leads_retain) hrelease
  · exact hrelease ()

theorem checkAlignment_lawful (t : BoundType) : (checkAlignment t).Lawful := by
  unfold checkAlignment
  split
  · exact .fail _
  · exact .pure _

end Op

namespace Act

open Op (blockAt_lawful boxTarget_lawful setSharedTarget_lawful setBoxTarget_lawful)

/-! ## Objects behind handles -/

theorem objectAt_lawful (t : BoundType) (i : StackIndex) : (objectAt t i).Lawful := by
  refine .bind .get fun _ => .bind (isInstance_lawful _) fun _ => .ite ?_ (.lift (blockAt_lawful _))
  refine .bind (isType_lawful _ _) fun _ => .ite ?_ ?_
  · exact .bind (.lift (boxTarget_lawful _)) fun _ => .ite (.lift (.fail _)) (.pure _)
  · exact .bind (isType_lawful _ _) fun _ => .ite (.lift (blockAt_lawful _)) (.lift (.fail _))

theorem objectOrNil_lawful (t : BoundType) (i : StackIndex) : (objectOrNil t i).Lawful :=
  .bind .get fun _ => .ite (.pure _) (.bind (objectAt_lawful _ _) fun _ => .pure _)

theorem setBoxFrom_lawful (t : BoundType) (i source : StackIndex) :
    (setBoxFrom t i source).Lawful :=
  .bind .get fun _ => .bind (objectAt_lawful _ _) fun _ => .lift (setBoxTarget_lawful _ _)

theorem setSharedFrom_lawful (i source : StackIndex) (replacing : Bool) :
    (setSharedFrom i source replacing).Lawful :=
  .bind .get fun _ => .bind (objectOrNil_lawful _ _) fun _ => .lift (setSharedTarget_lawful _ _ _)

theorem copyVector_lawful (v : Vec2) : (copyVector v).Lawful :=
  .bind (.modifyGet fun _ => leads_allocate) fun _ => newInstance_lawful _ _ _

theorem fillOrCopy_lawful (n : Nat) (v : Vec2) (cut : Bool) : (fillOrCopy n v cut).Lawful := by
  have hend : ∀ {α : Type} (_ : α), (pure 1 : Act ScriptError Nat).Lawful := fun _ => .pure _
  refine .bind .get fun _ => .ite (.bind (copyVector_lawful v) hend) ?_
  exact .bind (objectAt_lawful _ _) fun _ => .bind (.modify fun _ => leads_writeBytes) fun _ =>
    .ite (.bind (.modify fun _ => leads_setTop) hend) (hend ())

/-! ## Hooks -/

theorem runHook_lawful (h : Hook) : (runHook h).Lawful := by
  have hend : ∀ {α : Type} (_ : α), (pure 0 : Act ScriptError Nat).Lawful := fun _ => .pure _
  cases h with
  | copyValue t =>
      exact .bind (.lift (Op.checkAlignment_lawful t)) fun _ => .bind (objectAt_lawful _ _) fun _ =>
        .bind (.lift (blockAt_lawful _)) fun _ => .bind (.modify fun _ => leads_writeBytes) hend
  | borrow t => exact .bind (setBoxFrom_lawful _ _ _) hend
  | adoptFresh =>
      exact .bind (.modifyGet fun _ => leads_newCounted) fun _ =>
        .bind (.lift (setSharedTarget_lawful _ _ _)) hend
  | shareTarget =>
      exact .bind (.lift (boxTarget_lawful _)) fun _ =>
        .bind (.lift (setSharedTarget_lawful _ _ _)) hend
  | retainSource =>
      exact .bind (objectAt_lawful _ _) fun _ => .bind (.lift (setSharedTarget_lawful _ _ _)) hend
  | retainSourceOrNull => exact .bind (setSharedFrom_lawful _ _ _) hend
  | releaseTarget => exact .bind (.lift (setSharedTarget_lawful _ _ _)) hend
  | dropValue t =>
      exact .bind (.lift (blockAt_lawful _)) fun _ =>
        .ite (.bind (.modify fun _ => leads_recordDrop) hend) (hend ())

theorem anchorBlock_lawful (t : BoundType) : (anchorBlock t).Lawful :=
  .bind (.lift (Op.checkAlignment_lawful t)) fun _ => .bind (newUserdata_lawful _) fun _ =>
    .bind newTable_lawful fun _ => .bind (pushNative_lawful _ _) fun _ =>
      .bind (setField_lawful _ _) fun _ => .bind (.lift (Op.setMetatable_lawful _)) fun _ =>
        .bind (.lift (Op.pushLight_lawful _)) fun _ => .bind (.lift (Op.insert_lawful _)) fun _ =>
          .bind (.lift (Op.rawSet_lawful _)) fun _ => .pure _

theorem releaseAnchor_lawful (block : Address) : (releaseAnchor block).Lawful :=
  .bind (.lift (Op.pushLight_lawful _)) fun _ => .bind (.modify fun _ => leads_push) fun _ =>
    .lift (Op.rawSet_lawful _)

end Act

end ScriptHost
