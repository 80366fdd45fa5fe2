import ScriptHost.Proofs.Keeping.Call
import ScriptHost.Proofs.Spec.Class

/-! # Functions of the host that keep the class library

The services of the library, the handlers of native properties and the stock hooks leave a machine equipped. The
only store among them that concerns a table of the library is that of `New`, which gives a new userdata the
metatable of its class.
-/

namespace ScriptHost

open Machine

variable {l : Library}

/-- An instance of a class is made of a userdata. -/
theorem Machine.Equipped.withMetatable {m : Machine} {c : String × Nat} (h : m.Equipped l) (hc : c ∈ l.classes)
    (slot : Nat) : (m.withMetatable slot c.2).Equipped l := by
  let heap := m.heap.modifyUserdata slot fun u => { u with metatable := some c.2 }
  have hchange : m.heap.Change heap := .userMeta slot (some c.2)
  refine ⟨hchange.sound h.sound, h.strings, h.opened, h.registry, h.globals, h.present, h.shelf, h.stocked, h.cached,
    h.marked, h.plain, h.entered, h.registered, fun {s u} hu => ?_⟩
  rw [Machine.withMetatable, Heap.userdata?, Heap.modifyUserdata, Arena.get?_modify] at hu
  split at hu
  · obtain ⟨u₀, -, rfl⟩ := Option.map_eq_some_iff.mp hu
    exact .inr ⟨c, hc, rfl⟩
  · exact h.instances hu

namespace Act

variable {ε : Type}

/-! ## Telling instances apart -/

theorem pushClassFunction_keeps {code : NativeCode} (hcode : code ∈ Class.codes) :
    Keeps l (pushClassFunction code) := by
  refine ⟨pushClassFunction_lawful code, fun {host m} hhost hm h _ => ?_⟩
  obtain ⟨cache, v, hrun, -, hpasses⟩ := pushClassFunction_eq host hm h.ready hcode
  rw [Op.after_ok hrun]
  exact (h.passes hpasses).push

theorem popTruth_keeps : Keeps l popTruth :=
  .bind .get fun _ => .bind (.modify (fun _ => leads_pop) fun _ h => h.pop) fun _ => .pure _

theorem isInstance_keeps (i : StackIndex) : Keeps l (isInstance i) :=
  .bind .get fun _ => .bind (pushClassFunction_keeps (by decide)) fun _ =>
    .bind (.modify (fun _ => leads_pushAt) fun _ h => h.pushAt) fun _ => .bind (call_keeps _ _) fun _ => popTruth_keeps

theorem isType_keeps (i : StackIndex) (name : String) : Keeps l (isType i name) :=
  .bind .get fun _ => .bind (pushClassFunction_keeps (by decide)) fun _ =>
    .bind (.modify (fun _ => leads_pushAt) fun _ h => h.pushAt) fun _ =>
      .bind (.modify (fun _ => leads_pushText) fun _ h => h.pushText) fun _ =>
        .bind (call_keeps _ _) fun _ => popTruth_keeps

theorem classMetatable_keeps : Keeps l classMetatable := by
  have hmeta : ∀ (i : StackIndex) (m : Machine), m.Equipped l → (m.getMetatable i).2.Equipped l := by
    intro i m h
    unfold getMetatable
    split
    · exact h.push
    · exact h
  refine .bind .get fun _ => .ite (.pure _) (.bind (.modifyGet (fun _ => leads_getMetatable) (hmeta _)) fun _ =>
    .ite (.pure _) (.bind (.lift (Op.rawGetField_lawful _ _) (Op.rawGetField_keeps _ _)) fun _ =>
      .bind (.modify (fun _ => leads_pop) fun _ h => h.pop) fun _ => .ite ?_ (.pure _)))
  exact .bind (.modify (fun _ => leads_pop) fun _ h => h.pop) fun _ => .pure _

theorem classIsInstance_keeps : Keeps l classIsInstance := by
  have hend : ∀ (found : Bool) (_ : PUnit), Keeps l (do
      modify (·.push (.bool found))
      pure 1 : Act ScriptError Nat) :=
    fun _ _ => .bind (.modify (fun _ => leads_push) fun _ h => h.push) fun _ => .pure _
  exact .bind classMetatable_keeps fun found =>
    .ite (.bind (.modify (fun _ => leads_pop) fun _ h => h.pop) (hend found)) (hend found ⟨⟩)

theorem classIsType_keeps : Keeps l classIsType := by
  have hend : ∀ found : Bool, Keeps l (do
      modify fun m => (m.setTop 2).push (.bool found)
      pure 1 : Act ScriptError Nat) :=
    fun _ => .bind (.modify (fun _ => leads_setTop.trans leads_push) fun _ h => h.setTop.push) fun _ => .pure _
  exact .bind (.lift (Op.checkText_lawful _) (Op.checkText_keeps _)) fun _ => .bind classMetatable_keeps fun _ =>
    .ite (.bind (.pure _) hend) (.bind (.lift (Op.getRegistered_lawful _) (Op.getRegistered_keeps _)) fun _ =>
      .bind .get fun _ => .bind (.pure _) hend)

/-! ## Making instances -/

theorem newUserdata_spec {b : Nat} (size : Nat) (s : List Value) (E : Machine → Prop) :
    Spec (Laid b s) (newUserdata size : Act ε Address) (fun _ m => ∃ slot, Laid b (s ++ [.userdata slot]) m) E := by
  refine .bind (collectIfDue_spec s E) fun _ =>
    .modifyGet (fun _ => (leads_heap (.newUserdata size)).trans leads_push) fun m _ hl => ?_
  have hl' : Laid b s { m with heap := (m.heap.newUserdata size).2 } := hl.of_eq rfl rfl
  exact ⟨_, hl'.push⟩

theorem forM_keeps {α : Type} {f : α → Act ε PUnit} (hf : ∀ a, Keeps l (f a)) (as : List α) : Keeps l (as.forM f) := by
  induction as with
  | nil => exact .pure _
  | cons a as ih => exact .bind (hf a) fun _ => ih

theorem callConstructor_keeps (count : Nat) (created : StackIndex) : Keeps l (callConstructor count created) :=
  .bind (.modify (fun _ => leads_pushAt) fun _ h => h.pushAt) fun _ =>
    .bind (forM_keeps (fun _ => .modify (fun _ => leads_pushAt) fun _ h => h.pushAt) _) fun _ =>
      .bind (call_keeps _ _) fun _ =>
        .modify (fun _ => leads_noteConstructed) fun _ h => h.passes (passes_noteConstructed _ _)

/-- The new userdata gets the metatable of a class. -/
theorem construct_keeps {b slot count i : Nat} {s : List Value} {c : String × Nat} (hc : c ∈ l.classes)
    (hb : b ≤ s.length) (hi : b + i = s.length + 1) :
    KeepsFrom l (Laid b (s ++ [.table c.2, .userdata slot])) (construct count (.fromBottom i)) := by
  refine .get_bind (construct_lawful count _) fun m hm h hl => ?_
  have hlaid : Laid b (s ++ .table c.2 :: [.userdata slot]) m := hl
  have hclass : m.value (.fromBottom i) = .table c.2 := hlaid.value_fromBottom hb hi
  have htop : b + m.top = s.length + 2 := by
    rw [hlaid.top, List.length_append, List.length_cons, List.length_singleton]
    omega
  refine .bind (Q := fun _ => (· = m.push (.table c.2))) (E := fun _ => True)
    (.modify (fun _ => leads_pushAt) fun m₁ _ heq => ?_) (.modify (fun _ => leads_pushAt) fun _ _ h _ => h.pushAt)
    fun _ => .then_keeps (.lift (Op.setMetatable_lawful _) fun m₁ hm₁ h₁ heq => ?_) fun _ => ?_
  · rw [heq, pushAt, hclass]
  · have hpushed : Laid b ((s ++ [.table c.2]) ++ .userdata slot :: [.table c.2]) m₁ := by
      rw [heq]
      simpa using hlaid.push (v := .table c.2)
    have htopValue : m₁.topValue = .table c.2 := by
      rw [heq]
      exact topValue_push hm
    have hcreated : m₁.value (m₁.absolute (.fromBottom m.top)) = .userdata slot :=
      hpushed.value_fromBottom (by rw [List.length_append]; omega) (by
        rw [List.length_append, List.length_singleton]
        omega)
    rw [Op.after_ok (setMetatable_eq htopValue hcreated)]
    exact (h₁.withMetatable hc slot).pop
  · exact Keeps.bind (.lift (Op.rawGetField_lawful _ _) (Op.rawGetField_keeps _ _)) fun _ => .ite
      (.bind (callConstructor_keeps _ _) fun _ => .modify (fun _ => leads_pushAt) fun _ h => h.pushAt)
      (.bind (.modify (fun _ => leads_pop) fun _ h => h.pop) fun _ =>
        .modify (fun _ => leads_pushAt) fun _ h => h.pushAt)

theorem instantiate_keeps {b count : Nat} {s : List Value} {c : String × Nat} (hc : c ∈ l.classes)
    (hb : b ≤ s.length) : KeepsFrom l (Laid b (s ++ [.table c.2])) (instantiate count) := by
  refine .get_bind (instantiate_lawful count) fun m hm h hl => ?_
  have htop : b + m.top = s.length + 1 := by
    rw [hl.top, List.length_append, List.length_singleton]
    omega
  have hb' : b ≤ (s ++ [Value.table c.2]).length := by
    rw [List.length_append]
    omega
  have hread : Spec (· = m) (liftM (Op.rawGetField (.fromBottom m.top) Class.sizeField) : Act ScriptError ValueKind)
      (fun _ => Pushed b (s ++ [.table c.2])) (fun _ => True) :=
    .lift (Op.rawGetField_lawful _ _) fun m₁ _ heq =>
      (Op.rawGetField_meets _ _ m₁ (heq ▸ hl)).imp (fun _ _ => id) fun _ _ => trivial
  refine .bind hread (.of_keeps (.lift (Op.rawGetField_lawful _ _) (Op.rawGetField_keeps _ _))) fun _ =>
    .bind (E := fun _ => True) .get .get fun m₂ => .bind (E := fun _ => True) (Q := fun _ => Laid b (s ++ [.table c.2]))
      (.modify (fun _ => leads_pop) fun m₁ _ hp => hp.pop hb') (.modify (fun _ => leads_pop) fun _ _ h _ => h.pop)
      fun _ => .bind (newUserdata_spec _ _ fun _ => True) (.of_keeps (newUserdata_keeps _)) fun _ =>
        .exists_pre fun slot => ?_
  rw [List.append_assoc]
  exact construct_keeps hc hb htop

/-- What is registered under a name, if it is a table, belongs to a class. -/
theorem getRegistered_class {m : Machine} {name : String} (h : m.Equipped l) :
    Spec (· = m) (liftM (Op.getRegistered name) : Act ScriptError ValueKind) (fun kind m' => kind = .table →
      ∃ c ∈ l.classes, Laid m.base (m.stack.toList ++ [.table c.2]) m') (fun _ => True) := by
  refine .lift (Op.getRegistered_lawful _) fun m₁ _ heq => ?_
  subst heq
  rw [Op.getRegistered, rawGetField_eq (show m₁.value .registry = .table m₁.registry from rfl)]
  intro hkind
  rw [h.registry] at hkind ⊢
  have hnil : (m₁.heap.table l.registry).get (.string (m₁.intern (Utf8.encode name)).1) ≠ .nil := by
    intro hnil
    rw [hnil] at hkind
    cases hkind
  obtain ⟨c, hc, hget, -⟩ := h.registered _ hnil
  have hl : Laid m₁.base m₁.stack.toList (m₁.intern (Utf8.encode name)).2 := ⟨rfl, rfl⟩
  rw [hget]
  exact ⟨c, hc, hl.push⟩

theorem classNew_keeps : Keeps l classNew := by
  refine .bind (.lift (Op.checkText_lawful _) (Op.checkText_keeps _)) fun name => ?_
  have hend : ∀ (count : Nat) (_ : PUnit), (do
      instantiate count
      pure 1 : Act ScriptError Nat).Lawful :=
    fun count _ => .bind (instantiate_lawful count) fun _ => .pure _
  refine KeepsFrom.get_bind (.bind .get fun _ => .bind (.lift (Op.getRegistered_lawful _)) fun _ =>
    .ite (.bind (.lift (.fail _)) (hend _)) (hend _ ⟨⟩)) fun m hm h _ => ?_
  refine .bind (getRegistered_class h) (.of_keeps (.lift (Op.getRegistered_lawful _) (Op.getRegistered_keeps _)))
    fun kind => ?_
  by_cases hkind : kind = .table
  · rw [if_neg (by simp [hkind])]
    refine KeepsFrom.then_keeps ⟨instantiate_lawful _, fun hhost hm' h' hp => ?_⟩ fun _ => .pure _
    obtain ⟨c, hc, hl⟩ := hp hkind
    exact (instantiate_keeps hc (by rw [Array.length_toList]; exact hm)).keeps hhost hm' h' hl
  · rw [if_pos (by simpa using hkind)]
    exact ⟨.bind (.lift (.fail _)) (hend _), fun _ _ h' _ => h'⟩

/-! ## Handles and hooks -/

theorem objectAt_keeps (t : BoundType) (i : StackIndex) : Keeps l (objectAt t i) := by
  have hblock : ∀ i, Keeps l (liftM (Op.blockAt i) : Act ScriptError Address) :=
    fun i => .lift (Op.blockAt_lawful i) (Op.blockAt_keeps i)
  have hfail : ∀ f : Fault, Keeps l (liftM (fail f : Op ScriptError Address) : Act ScriptError Address) :=
    fun f => .lift (.fail f) (.fail f)
  refine .bind .get fun _ => .bind (isInstance_keeps _) fun _ => .ite ?_ (hblock _)
  refine .bind (isType_keeps _ _) fun _ => .ite ?_ (.bind (isType_keeps _ _) fun _ => .ite (hblock _) (hfail _))
  exact .bind (.lift (Op.boxTarget_lawful _) (Op.boxTarget_keeps _)) fun _ => .ite (hfail _) (.pure _)

theorem objectOrNil_keeps (t : BoundType) (i : StackIndex) : Keeps l (objectOrNil t i) :=
  .bind .get fun _ => .ite (.pure _) (.bind (objectAt_keeps _ _) fun _ => .pure _)

theorem setBoxFrom_keeps (t : BoundType) (i source : StackIndex) : Keeps l (setBoxFrom t i source) :=
  .bind .get fun _ => .bind (objectAt_keeps _ _) fun _ =>
    .lift (Op.setBoxTarget_lawful _ _) (Op.setBoxTarget_keeps _ _)

theorem setSharedFrom_keeps (i source : StackIndex) (replacing : Bool) : Keeps l (setSharedFrom i source replacing) :=
  .bind .get fun _ => .bind (objectOrNil_keeps _ _) fun _ =>
    .lift (Op.setSharedTarget_lawful _ _ _) (Op.setSharedTarget_keeps _ _ _)

theorem runHook_keeps (h : Hook) : Keeps l (runHook h) := by
  have hend : ∀ {γ : Type} (_ : γ), Keeps l (pure 0 : Act ScriptError Nat) := fun _ => .pure _
  have hshare : ∀ (i : StackIndex) (target : Address) (replacing : Bool),
      Keeps l (liftM (Op.setSharedTarget i target replacing) : Act ScriptError Unit) :=
    fun _ _ _ => .lift (Op.setSharedTarget_lawful _ _ _) (Op.setSharedTarget_keeps _ _ _)
  have hblock : ∀ i, Keeps l (liftM (Op.blockAt i) : Act ScriptError Address) :=
    fun i => .lift (Op.blockAt_lawful i) (Op.blockAt_keeps i)
  cases h with
  | copyValue t =>
      exact .bind (.lift (Op.checkAlignment_lawful t) (Op.checkAlignment_keeps t)) fun _ =>
        .bind (objectAt_keeps _ _) fun _ => .bind (hblock _) fun _ =>
          .bind (.modify (fun _ => leads_writeBytes) fun _ h => h.writeBytes) hend
  | borrow t => exact .bind (setBoxFrom_keeps _ _ _) hend
  | adoptFresh =>
      exact .bind (.modifyGet (fun _ => leads_newCounted) fun _ h => h.allocate) fun _ => .bind (hshare _ _ _) hend
  | shareTarget =>
      exact .bind (.lift (Op.boxTarget_lawful _) (Op.boxTarget_keeps _)) fun _ => .bind (hshare _ _ _) hend
  | retainSource => exact .bind (objectAt_keeps _ _) fun _ => .bind (hshare _ _ _) hend
  | retainSourceOrNull => exact .bind (setSharedFrom_keeps _ _ _) hend
  | releaseTarget => exact .bind (hshare _ _ _) hend
  | dropValue t =>
      exact .bind (hblock _) fun _ =>
        .ite (.bind (.modify (fun _ => leads_recordDrop) fun _ h => h.recordDrop) hend) (hend ())

/-! ## Properties -/

theorem readProperty_keeps (p : Peer) : Keeps l (readProperty p) := by
  have hend : ∀ _ : PUnit, Keeps l (pure 1 : Act ScriptError Nat) := fun _ => .pure _
  have hnil : Keeps l (do
      modify (·.push .nil)
      pure 1 : Act ScriptError Nat) := .bind (.modify (fun _ => leads_push) fun _ h => h.push) hend
  refine .bind (.lift p.objectAddress_lawful p.objectAddress_keeps) fun object =>
    .bind (.lift Peer.keyName_lawful Peer.keyName_keeps) fun name => ?_
  cases name with
  | none => exact hnil
  | some name =>
      dsimp only
      cases p.getters.lookup name with
      | some getter =>
          exact .bind (pushNative_keeps _ _) fun _ =>
            .bind (.modify (fun _ => leads_pushAt.trans leads_pushAt) fun _ h => h.pushAt.pushAt) fun _ =>
              .bind (.lift (Op.pushLight_lawful _) (Op.pushLight_keeps _)) fun _ => .bind (call_keeps _ _) hend
      | none =>
          dsimp only
          cases p.members.get? name with
          | some member => exact .bind (.lift (Op.readMember_lawful _ _) (Op.readMember_keeps _ _)) hend
          | none => exact hnil

theorem writeProperty_keeps (p : Peer) : Keeps l (writeProperty p) := by
  have hend : ∀ _ : PUnit, Keeps l (pure 0 : Act ScriptError Nat) := fun _ => .pure _
  refine .bind (.lift p.objectAddress_lawful p.objectAddress_keeps) fun object =>
    .bind (.lift Peer.keyName_lawful Peer.keyName_keeps) fun name => ?_
  cases name with
  | none => exact hend ⟨⟩
  | some name =>
      dsimp only
      cases p.setters.lookup name with
      | some setter =>
          exact .bind (pushNative_keeps _ _) fun _ =>
            .bind (.modify (fun _ => leads_pushAt.trans (leads_pushAt.trans leads_pushAt))
              fun _ h => h.pushAt.pushAt.pushAt) fun _ =>
              .bind (.lift (Op.pushLight_lawful _) (Op.pushLight_keeps _)) fun _ => .bind (call_keeps _ _) hend
      | none =>
          dsimp only
          cases p.members.get? name with
          | some member => exact .bind (.lift (Op.writeMember_lawful _ _) (Op.writeMember_keeps _ _)) hend
          | none => exact hend ⟨⟩

theorem readPropertyOrField_keeps : Keeps l readPropertyOrField :=
  .bind (.modify (fun _ => leads_pushAt.trans (leads_pushAt.trans leads_pushAt)) fun _ h => h.pushAt.pushAt.pushAt)
    fun _ => .bind (call_keeps _ _) fun _ => .bind .get fun _ =>
      .ite (.bind (.modify (fun _ => leads_pop.trans leads_pushAt) fun _ h => h.pop.pushAt) fun _ =>
        .bind (.lift (Op.rawGet_lawful _) (Op.rawGet_keeps _)) fun _ => .pure _) (.pure _)

theorem traceback_keeps : Keeps l traceback :=
  .bind .get fun _ => .ite (.bind (.modify (fun _ => leads_setTop) fun _ h => h.setTop) fun _ => .pure _)
    (.bind (.modifyGet (fun _ => leads_textAt) fun _ h => h.stringAt) fun _ => .bind .get fun _ =>
      .bind (.modify (fun _ => leads_pushText) fun _ h => h.pushText) fun _ => .pure _)

end Act

/-! ## Hosts -/

namespace Programs

/-- The functions of a host that are programs keep a library; what they call keeps it. -/
def Keep (programs : Programs) (l : Library) : Prop :=
  ∀ name, Act.Keeps l (programs.enter (.code (.program name)))

theorem enter_keeps {programs : Programs} (h : programs.Keep l) (b : Behaviour) : Act.Keeps l (programs.enter b) := by
  cases b with
  | code c =>
      cases c with
      | program name => exact h name
      | hook hook => exact Act.runHook_keeps hook
      | traceback => exact Act.traceback_keeps
      | classNew => exact Act.classNew_keeps
      | classIsInstance => exact Act.classIsInstance_keeps
      | classIsType => exact Act.classIsType_keeps
  | readProperty p => exact Act.readProperty_keeps p
  | writeProperty p => exact Act.writeProperty_keeps p
  | readPropertyOrField => exact Act.readPropertyOrField_keeps

/-- However deep calls are nested, a host keeps a library if its programs do. -/
theorem host_keeps {programs : Programs} (h : programs.Keep l) (depth : Nat) : (programs.host depth).Keeps l := by
  induction depth with
  | zero => exact ⟨host_lawful _, fun _ _ _ he => he⟩
  | succ depth ih =>
      exact ⟨host_lawful _, fun b _ hm he => (enter_keeps h b).keeps ih hm he trivial⟩

end Programs

end ScriptHost
