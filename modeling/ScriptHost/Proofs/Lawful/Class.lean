import ScriptHost.Handle
import ScriptHost.Proofs.Lawful.Marshal

/-! # Properties, classes and handles

The native functions of the library are lawful, and so is all that the host does with classes, handles
and native memory.
-/

namespace ScriptHost

open Machine

variable {ε : Type}

/-! ## Properties -/

namespace Peer

theorem objectOf_lawful (p : Peer) (block : Address) : (p.objectOf block).Lawful := by
  rw [objectOf]
  cases p.addressing with
  | inBlock => exact .pure _
  | byPointer =>
      refine .bind .get fun m => ?_
      dsimp only
      split
      · exact .fail _
      · exact .pure _

theorem objectAddress_lawful (p : Peer) : p.objectAddress.Lawful := by
  refine .bind .get fun m => ?_
  dsimp only
  cases m.address? (m.value (.argument 1)) with
  | none => exact Op.failArgument_lawful _ _
  | some block =>
      dsimp only
      cases m.blockSize? (m.value (.argument 1)) with
      | none => exact p.objectOf_lawful block
      | some size =>
          dsimp only
          split
          · exact .bind (.fail _) fun _ => p.objectOf_lawful block
          · exact p.objectOf_lawful block

theorem keyName_lawful : keyName.Lawful :=
  .bind .get fun m => by
    split
    · exact .pure _
    · exact .pure _

end Peer

namespace Op

theorem readMember_lawful (object : Address) (member : Member) :
    (readMember object member).Lawful := by
  refine .bind .get fun m => ?_
  dsimp only
  split
  · split
    · exact .modify fun _ => leads_push
    · exact .modify fun _ => leads_pushBytes
  · split
    · exact .modify fun _ => leads_pushInt
    · exact .modify fun _ => leads_push
    · exact .fail _

theorem leads_pin {m : Machine} {id : StringId} {bytes : Bytes} :
    Leads m { m with heap := { m.heap with memory := (m.heap.memory.pin id bytes).2 } } := by
  unfold Memory.pin
  split
  · exact .refl
  · exact leads_heap (.allocate _ _)

theorem pin_lawful (id : StringId) : (pin id).Lawful := .modifyGet fun _ => leads_pin

theorem memberBytes_lawful (tag : MemberTag) : (memberBytes tag).Lawful := by
  cases tag with
  | pointer => exact .bind (checkAddress_lawful _) fun _ => .pure _
  | signedChar | signedShort | signedInt | signedLong | unsignedChar | unsignedShort
  | unsignedInt | unsignedLong => exact .bind (checkInt_lawful _) fun _ => .pure _
  | boolean => exact .bind (checkBool_lawful _) fun _ => .pure _
  | single | double => exact .bind (checkNumber_lawful _) fun _ => .pure _
  | text =>
      refine .bind .get fun _ => ?_
      split
      · exact .pure _
      · exact .bind (checkString_lawful _) fun _ => .bind (pin_lawful _) fun _ => .pure _

theorem writeMember_lawful (object : Address) (member : Member) :
    (writeMember object member).Lawful :=
  .bind (memberBytes_lawful _) fun _ => .modify fun _ => leads_heap (.write _ _)

end Op

namespace Act

theorem readProperty_lawful (p : Peer) : (readProperty p).Lawful := by
  have hend : ∀ _ : PUnit, (pure 1 : Act ScriptError Nat).Lawful := fun _ => .pure _
  refine .bind (.lift p.objectAddress_lawful) fun object => .bind (.lift Peer.keyName_lawful)
    fun name => ?_
  cases name with
  | none => exact .bind (.modify fun _ => leads_push) hend
  | some name =>
      dsimp only
      cases p.getters.lookup name with
      | some getter =>
          exact .bind (pushNative_lawful _ _) fun _ =>
            .bind (.modify fun _ => leads_pushAt.trans leads_pushAt) fun _ =>
              .bind (.lift (Op.pushLight_lawful _)) fun _ => .bind (call_lawful _ _) hend
      | none =>
          dsimp only
          cases p.members.get? name with
          | some member => exact .bind (.lift (Op.readMember_lawful _ _)) hend
          | none => exact .bind (.modify fun _ => leads_push) hend

theorem writeProperty_lawful (p : Peer) : (writeProperty p).Lawful := by
  have hend : ∀ _ : PUnit, (pure 0 : Act ScriptError Nat).Lawful := fun _ => .pure _
  refine .bind (.lift p.objectAddress_lawful) fun object => .bind (.lift Peer.keyName_lawful)
    fun name => ?_
  cases name with
  | none => exact hend ⟨⟩
  | some name =>
      dsimp only
      cases p.setters.lookup name with
      | some setter =>
          exact .bind (pushNative_lawful _ _) fun _ =>
            .bind (.modify fun _ => leads_pushAt.trans (leads_pushAt.trans leads_pushAt)) fun _ =>
              .bind (.lift (Op.pushLight_lawful _)) fun _ => .bind (call_lawful _ _) hend
      | none =>
          dsimp only
          cases p.members.get? name with
          | some member => exact .bind (.lift (Op.writeMember_lawful _ _)) hend
          | none => exact hend ⟨⟩

theorem readPropertyOrField_lawful : readPropertyOrField.Lawful :=
  .bind (.modify fun _ => leads_pushAt.trans (leads_pushAt.trans leads_pushAt)) fun _ =>
    .bind (call_lawful _ _) fun _ => .bind .get fun _ =>
      .ite (.bind (.modify fun _ => leads_pop.trans leads_pushAt) fun _ =>
        .bind (.lift (Op.rawGet_lawful _)) fun _ => .pure _) (.pure _)

theorem bindPeer_lawful (p : Peer) : (bindPeer p : Act ε Unit).Lawful :=
  .bind (pushFunction_lawful _ _ _) fun _ => pushFunction_lawful _ _ _

theorem installPeer_lawful (metatable : StackIndex) (p : Peer) :
    (installPeer metatable p).Lawful := by
  have hinstall : ∀ (i : StackIndex) (_ : PUnit), (do
      bindPeer p
      setField i Metafield.newindex.text
      modify (·.pushAt i)
      pushFunction .readPropertyOrField 2 .host
      setField i Metafield.index.text : Act ScriptError Unit).Lawful := fun i _ =>
    .bind (bindPeer_lawful p) fun _ => .bind (setField_lawful _ _) fun _ =>
      .bind (.modify fun _ => leads_pushAt) fun _ => .bind (pushFunction_lawful _ _ _) fun _ =>
        setField_lawful _ _
  refine .bind .get fun m => ?_
  dsimp only
  split
  · exact hinstall _ ⟨⟩
  · exact .bind (.lift (.fail _)) (hinstall _)

/-! ## Classes -/

theorem installClasses_lawful : installClasses.Lawful := register_lawful _ _

theorem setPushed_lawful {push : Act ScriptError Unit} (hpush : push.Lawful)
    (metatable : StackIndex) (field : String) : (setPushed metatable field push).Lawful :=
  .bind hpush fun _ => .lift (Op.rawSetField_lawful _ _)

theorem forM_lawful {α : Type} {f : α → Act ε PUnit} (hf : ∀ a, (f a).Lawful) (l : List α) :
    (l.forM f).Lawful := by
  induction l with
  | nil => exact .pure _
  | cons a l ih => exact .bind (hf a) fun _ => ih

/-- Doing something lawful with a value that may be missing is lawful. -/
theorem optional_lawful {α : Type} {f : α → Act ε PUnit} (hf : ∀ a, (f a).Lawful) (o : Option α) :
    (o.forM f).Lawful := by
  cases o with
  | none => exact .pure _
  | some a => exact hf a

theorem fillMetatable_lawful (d : ClassDef) : (fillMetatable d).Lawful :=
  .bind .get fun _ =>
    .bind (setPushed_lawful (.modify fun _ => leads_push) _ _) fun _ =>
    .bind (setPushed_lawful (.modify fun _ => leads_pushInt) _ _) fun _ =>
    .bind (optional_lawful (fun _ => setPushed_lawful (pushNative_lawful _ _) _ _) _) fun _ =>
    .bind (optional_lawful (fun _ => setPushed_lawful (pushNative_lawful _ _) _ _) _) fun _ =>
    .bind (forM_lawful (fun _ => setPushed_lawful (pushNative_lawful _ _) _ _) _) fun _ =>
    .bind (setPushed_lawful (.modify fun _ => leads_pushAt) _ _) fun _ =>
    .bind (optional_lawful (installPeer_lawful _) _) fun _ => .modify fun _ => leads_pop

theorem defineClass_lawful (d : ClassDef) : (defineClass d).Lawful :=
  .bind installClasses_lawful fun _ => .bind (newMetatable_lawful _) fun _ =>
    .ite (.bind (.modify fun _ => leads_pop) fun _ => .bind (.lift (.fail _)) fun _ =>
      fillMetatable_lawful d) (fillMetatable_lawful d)

theorem pushClassFunction_lawful (code : NativeCode) : (pushClassFunction code).Lawful :=
  .bind (cacheGet_lawful _) fun _ => .ite
    (.bind (getGlobal_lawful _) fun _ => .bind (.modify fun _ => leads_pop) fun _ =>
      .ite (.bind installClasses_lawful fun _ => cachedGlobal_lawful _ nofun) (cachedGlobal_lawful _ nofun))
    (.pure _)

theorem newInstance_lawful (name : String) (ds : List Directive) (args : List Argument) :
    (newInstance name ds args).Lawful :=
  .bind (pushClassFunction_lawful _) fun _ => .bind (.modify fun _ => leads_pushText) fun _ =>
    .bind (callMarshaled_lawful _ _ _ _ _) fun _ => .pure _

theorem popTruth_lawful : popTruth.Lawful :=
  .bind .get fun _ => .bind (.modify fun _ => leads_pop) fun _ => .pure _

theorem isInstance_lawful (i : StackIndex) : (isInstance i).Lawful :=
  .bind .get fun _ => .bind (pushClassFunction_lawful _) fun _ =>
    .bind (.modify fun _ => leads_pushAt) fun _ => .bind (call_lawful _ _) fun _ => popTruth_lawful

theorem isType_lawful (i : StackIndex) (name : String) : (isType i name).Lawful :=
  .bind .get fun _ => .bind (pushClassFunction_lawful _) fun _ =>
    .bind (.modify fun _ => leads_pushAt) fun _ => .bind (.modify fun _ => leads_pushText) fun _ =>
      .bind (call_lawful _ _) fun _ => popTruth_lawful

theorem leads_getMetatable {m : Machine} {i : StackIndex} : Leads m (m.getMetatable i).2 := by
  unfold getMetatable
  split
  · exact leads_push
  · exact .refl

theorem classMetatable_lawful : classMetatable.Lawful := by
  refine .bind .get fun _ => .ite (.pure _) (.bind (.modifyGet fun _ => leads_getMetatable) fun _ =>
    .ite (.pure _) (.bind (.lift (Op.rawGetField_lawful _ _)) fun _ =>
      .bind (.modify fun _ => leads_pop) fun _ => .ite ?_ (.pure _)))
  exact .bind (.modify fun _ => leads_pop) fun _ => .pure _

theorem classIsInstance_lawful : classIsInstance.Lawful := by
  have hend : ∀ (found : Bool) (_ : PUnit), (do
      modify (·.push (.bool found))
      pure 1 : Act ScriptError Nat).Lawful :=
    fun _ _ => .bind (.modify fun _ => leads_push) fun _ => .pure _
  exact .bind classMetatable_lawful fun found =>
    .ite (.bind (.modify fun _ => leads_pop) (hend found)) (hend found ⟨⟩)

theorem classIsType_lawful : classIsType.Lawful := by
  have hend : ∀ found : Bool, (do
      modify fun m => (m.setTop 2).push (.bool found)
      pure 1 : Act ScriptError Nat).Lawful :=
    fun _ => .bind (.modify fun _ => leads_setTop.trans leads_push) fun _ => .pure _
  exact .bind (.lift (Op.checkText_lawful _)) fun _ => .bind classMetatable_lawful fun _ =>
    .ite (.bind (.pure _) hend) (.bind (.lift (Op.getRegistered_lawful _)) fun _ =>
      .bind .get fun _ => .bind (.pure _) hend)

/-- Recording that a constructor returned changes the log only. -/
theorem leads_noteConstructed {m : Machine} {i : StackIndex} : Leads m (m.noteConstructed i) := by
  unfold noteConstructed
  split
  · exact leads_note_constructed
  · exact .refl

theorem callConstructor_lawful (count : Nat) (created : StackIndex) :
    (callConstructor count created).Lawful :=
  .bind (.modify fun _ => leads_pushAt) fun _ =>
    .bind (forM_lawful (fun _ => .modify fun _ => leads_pushAt) _) fun _ =>
      .bind (call_lawful _ _) fun _ => .modify fun _ => leads_noteConstructed

theorem construct_lawful (count : Nat) (metatable : StackIndex) :
    (construct count metatable).Lawful :=
  .bind .get fun _ => .bind (.modify fun _ => leads_pushAt) fun _ =>
    .bind (.lift (Op.setMetatable_lawful _)) fun _ => .bind (.lift (Op.rawGetField_lawful _ _))
      fun _ => .ite
        (.bind (callConstructor_lawful _ _) fun _ => .modify fun _ => leads_pushAt)
        (.bind (.modify fun _ => leads_pop) fun _ => .modify fun _ => leads_pushAt)

theorem instantiate_lawful (count : Nat) : (instantiate count).Lawful :=
  .bind .get fun _ => .bind (.lift (Op.rawGetField_lawful _ _)) fun _ => .bind .get fun _ =>
    .bind (.modify fun _ => leads_pop) fun _ => .bind (newUserdata_lawful _) fun _ =>
      construct_lawful _ _

theorem classNew_lawful : classNew.Lawful := by
  have hend : ∀ (count : Nat) (_ : PUnit), (do
      instantiate count
      pure 1 : Act ScriptError Nat).Lawful :=
    fun count _ => .bind (instantiate_lawful count) fun _ => .pure _
  exact .bind (.lift (Op.checkText_lawful _)) fun _ => .bind .get fun _ =>
    .bind (.lift (Op.getRegistered_lawful _)) fun _ =>
      .ite (.bind (.lift (.fail _)) (hend _)) (hend _ ⟨⟩)

end Act

end ScriptHost
