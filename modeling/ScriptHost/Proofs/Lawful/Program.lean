import ScriptHost.Session
import ScriptHost.Proofs.Lawful.Handle

/-! # Programs and sessions

Every step of a program is lawful, so hosts that run programs are, and the states that a session goes
through are states of its machine.
-/

namespace ScriptHost

open Machine

namespace Act

variable {ε : Type}

theorem silently_lawful {x : Act ε Unit} (hx : x.Lawful) : (silently x).Lawful :=
  .bind hx fun _ => .pure _

theorem script_lawful {α : Type} {x : Act ScriptError α} (hx : x.Lawful) : (script x).Lawful :=
  .mapError hx

/-- An answer is made of the result of an operation. -/
theorem reply_lawful {α : Type} {x : Act ε α} {f : α → Reply} (hx : x.Lawful) :
    (do pure (f (← x)) : Act ε Reply).Lawful := .bind hx fun _ => .pure _

/-- An answer is read off the machine. -/
theorem query_lawful {f : Machine → Reply} : (do pure (f (← get)) : Act ε Reply).Lawful :=
  .bind .get fun _ => .pure _

end Act

open Act (silently_lawful script_lawful reply_lawful query_lawful)

/-! ## Steps on the stack and on values -/

theorem Literal.push_lawful (l : Literal) : l.push.Lawful := by
  cases l with
  | nil | bool | float => exact .modify fun _ => leads_push
  | int => exact .modify fun _ => leads_pushInt
  | bytes => exact .modify fun _ => leads_pushBytes
  | light => exact .bind .get fun _ => Op.pushLight_lawful _

theorem StackStep.run_lawful (s : StackStep) : s.run.Lawful := by
  cases s with
  | literal l => exact silently_lawful (.lift l.push_lawful)
  | copy => exact silently_lawful (.modify fun _ => leads_pushAt)
  | function => exact silently_lawful (Act.pushFunction_lawful _ _ _)
  | table => exact silently_lawful Act.newTable_lawful
  | userdata size => exact silently_lawful (.bind (Act.newUserdata_lawful size) fun _ => .pure _)
  | setTop => exact silently_lawful (.modify fun _ => leads_setTop)
  | pop => exact silently_lawful (.modify fun _ => leads_pop)
  | insert => exact silently_lawful (.lift (Op.insert_lawful _))
  | remove => exact silently_lawful (.lift (Op.remove_lawful _))
  | replace => exact silently_lawful (.lift (Op.replace_lawful _))
  | top | absolute | isValid | hasRoom => exact query_lawful

theorem leads_getMetafield {m : Machine} {i : StackIndex} {name : String} :
    Leads m (m.getMetafield i name).2 := by
  unfold getMetafield
  split
  · exact .refl
  · dsimp only
    split
    · exact .refl
    · exact leads_push

theorem leads_isCallable {m : Machine} {i : StackIndex} : Leads m (m.isCallable i).2 := by
  have hfield : Leads m (m.getMetafield (m.absolute i) Metafield.call.text).2 := leads_getMetafield
  unfold isCallable
  dsimp only
  split
  · exact .refl
  · split
    · rename_i hsome
      rw [hsome] at hfield
      exact hfield.trans leads_pop
    · rename_i hnone
      rw [hnone] at hfield
      exact hfield

theorem QueryStep.run_lawful (s : QueryStep) : s.run.Lawful := by
  cases s with
  | kind | inspect | rawEqual | rawLength | dump => exact query_lawful
  | text => exact .bind (.modifyGet fun _ => leads_textAt) fun _ => .pure _
  | bytes => exact reply_lawful (.modifyGet fun _ => leads_bytesAt)
  | terminated => exact .bind (.modifyGet fun _ => leads_bytesAt) fun _ => .pure _
  | isCallable => exact reply_lawful (.modifyGet fun _ => leads_isCallable)

/-! ## Steps on tables and names -/

theorem TableStep.walk_lawful (i : StackIndex) (fuel : Nat) : (TableStep.walk i fuel).Lawful := by
  induction fuel with
  | zero => exact .pure _
  | succ fuel ih =>
      exact .bind (.lift (Op.next_lawful i)) fun _ => .ite (.bind .get fun _ =>
        .bind (.modify fun _ => leads_pop) fun _ => .bind ih fun _ => .pure _) (.pure _)

theorem TableStep.run_lawful (s : TableStep) : s.run.Lawful := by
  cases s with
  | rawGet => exact reply_lawful (.lift (Op.rawGet_lawful _))
  | rawSet => exact silently_lawful (.lift (Op.rawSet_lawful _))
  | rawGetInt => exact reply_lawful (.lift (Op.rawGetInt_lawful _ _))
  | rawSetInt => exact silently_lawful (.lift (Op.rawSetInt_lawful _ _))
  | rawGetField => exact reply_lawful (.lift (Op.rawGetField_lawful _ _))
  | rawSetField => exact silently_lawful (.lift (Op.rawSetField_lawful _ _))
  | entry => exact reply_lawful (Act.getTable_lawful _)
  | setEntry => exact silently_lawful (Act.setTable_lawful _)
  | getField => exact reply_lawful (Act.getField_lawful _ _)
  | setField => exact silently_lawful (Act.setField_lawful _ _)
  | next => exact reply_lawful (.lift (Op.next_lawful _))
  | iterate i =>
      exact .bind .get fun _ => .bind (.modify fun _ => leads_push) fun _ => .bind .get fun _ =>
        reply_lawful (TableStep.walk_lawful _ _)
  | length => exact query_lawful
  | append => exact silently_lawful (.lift (Op.append_lawful _))
  | removeLast => exact silently_lawful (.lift (Op.removeLast_lawful _ _))
  | last => exact reply_lawful (.lift (Op.last_lawful _))
  | unpack => exact reply_lawful (.lift (Op.unpack_lawful _ _ _))

theorem MetaStep.run_lawful (s : MetaStep) : s.run.Lawful := by
  cases s with
  | metatable => exact reply_lawful (.modifyGet fun _ => Act.leads_getMetatable)
  | setMetatable => exact silently_lawful (.lift (Op.setMetatable_lawful _))
  | metafield => exact reply_lawful (.modifyGet fun _ => leads_getMetafield)
  | newMetatable => exact reply_lawful (Act.newMetatable_lawful _)
  | registered => exact reply_lawful (.lift (Op.getRegistered_lawful _))
  | userValue => exact reply_lawful (.modifyGet fun _ => leads_push)
  | setUserValue => exact silently_lawful (.lift (Op.setUserValue_lawful _))

/-- Programs name tokens only. -/
theorem CacheTerm.resolve_ne (t : CacheTerm) (m : Machine) (code : NativeCode) :
    t.resolve m ≠ .native code := by
  cases t <;> exact nofun

theorem NameStep.run_lawful (s : NameStep) : s.run.Lawful := by
  cases s with
  | plainGlobal => exact reply_lawful (Act.getField_lawful _ _)
  | setPlainGlobal => exact silently_lawful (Act.setField_lawful _ _)
  | global => exact reply_lawful (Act.getGlobal_lawful _)
  | setGlobal => exact silently_lawful (Act.setGlobal_lawful _)
  | cachedGlobal name key => exact silently_lawful (.bind .get fun m => Act.cachedGlobal_lawful _ (key.resolve_ne m))
  | cachedFunction => exact silently_lawful (Act.cachedNative_lawful _)
  | findTable => exact silently_lawful (Act.findTable_lawful _)
  | register => exact silently_lawful (Act.register_lawful _ _)
  | «recall» => exact .bind .get fun _ => reply_lawful (Act.cacheGet_lawful _)
  | remember key => exact silently_lawful (.bind .get fun m => Act.cacheSet_lawful (key.resolve_ne m))
  | freshKey =>
      exact .bind (.modifyGet fun m => (Change.cache m.cache.fresh.2 fun _ _ => id).leads.trans
        (Change.host _ _ _ _ _).leads) fun _ => .pure _

/-! ## Steps that call and raise -/

theorem CallStep.run_lawful (s : CallStep) : s.run.Lawful := by
  cases s with
  | call => exact silently_lawful (script_lawful (Act.call_lawful _ _))
  | protectedCall => exact silently_lawful (script_lawful (Act.protectedCall_lawful _ _ _))
  | tracedCall => exact silently_lawful (script_lawful (Act.tracedCall_lawful _ _))
  | marshal x => exact .bind .get fun _ => reply_lawful (.mapError (Act.marshal_lawful _ _))
  | read start x =>
      exact .bind .get fun _ => reply_lawful (Act.safely_lawful (Reading.trace_lawful _ _ _))
  | callMarshaled =>
      exact .bind .get fun _ => reply_lawful (script_lawful (Act.callMarshaled_lawful _ _ _ _ _))
  | invoke =>
      exact .bind .get fun _ =>
        .bind (.mapError (Act.invocation_lawful _ _ _ _ _)) fun _ => .pure _
  | loadLibraries =>
      refine .bind (script_lawful (Act.loadLibraries_lawful _)) fun message => ?_
      cases message with
      | none => exact .pure _
      | some text => exact .throw _
  | depth | frame | fatalReport => exact query_lawful

theorem RaiseStep.run_lawful (s : RaiseStep) : s.run.Lawful := by
  cases s with
  | error => exact .throw _
  | top => exact .bind .get fun _ => .bind (.modify fun _ => leads_pop) fun _ => .throw _
  | value =>
      exact .bind (.modifyGet fun _ => leads_errorValue) fun _ =>
        .bind (.modify fun _ => leads_push) fun _ => .pure _

/-! ## Steps that take arguments -/

theorem ArgumentType.take_lawful (t : ArgumentType) (n : Nat) : (t.take n).Lawful := by
  cases t with
  | signed | unsigned => exact .bind (Op.checkInt_lawful n) fun _ => .pure _
  | single | double => exact .bind (Op.checkNumber_lawful n) fun _ => .pure _
  | boolean => exact .bind (Op.checkBool_lawful n) fun _ => .pure _
  | text => exact .bind (Op.checkText_lawful n) fun _ => .pure _
  | terminated =>
      exact .bind (Op.checkString_lawful n) fun _ => .bind .get fun _ => .pure _
  | pointer => exact .bind (Op.checkAddress_lawful n) fun _ => .bind .get fun _ => .pure _

theorem TextPart.render_lawful (p : TextPart) : p.render.Lawful := by
  cases p with
  | literal => exact .pure _
  | slot => exact .bind (.modifyGet fun _ => leads_textAt) fun _ => .pure _
  | depth => exact .bind .get fun _ => .pure _

/-- Going through a list with lawful operations is lawful. -/
theorem Op.foldlM_lawful {ε α β : Type} {f : β → α → Op ε β} (hf : ∀ b a, (f b a).Lawful)
    (l : List α) (b : β) : (l.foldlM f b).Lawful := by
  induction l generalizing b with
  | nil => exact .pure _
  | cons a l ih => exact .bind (hf b a) fun b => ih b

theorem Op.mapM_lawful {ε α β : Type} {f : α → Op ε β} (hf : ∀ a, (f a).Lawful) (l : List α) :
    (l.mapM f).Lawful := by
  rw [← List.mapM'_eq_mapM]
  induction l with
  | nil => exact .pure _
  | cons a l ih => exact .bind (hf a) fun _ => .bind ih fun _ => .pure _

theorem ArgumentStep.run_lawful (s : ArgumentStep) : s.run.Lawful := by
  cases s with
  | any n => exact .bind (Op.checkAny_lawful n) fun _ => .pure _
  | integer n => exact .bind (Op.checkInt_lawful n) fun _ => .pure _
  | number n => exact .bind (Op.checkNumber_lawful n) fun _ => .pure _
  | boolean n => exact .bind (Op.checkBool_lawful n) fun _ => .pure _
  | text n => exact ArgumentType.take_lawful .text n
  | terminated n => exact ArgumentType.take_lawful .terminated n
  | kind n k => exact .bind (Op.checkKind_lawful n k) fun _ => .pure _
  | testUserdata n name => exact .bind .get fun _ => .pure _
  | userdata n name =>
      exact .bind (Op.checkUserdata_lawful n name) fun _ => .bind .get fun _ => .pure _
  | native t n => exact t.take_lawful n
  | popNative t =>
      exact .bind .get fun _ => .bind (t.take_lawful _) fun _ =>
        .bind (.modify fun _ => leads_pop) fun _ => .pure _
  | sum =>
      exact .bind .get fun _ => .bind (Op.foldlM_lawful (fun _ _ =>
        .bind (Op.checkInt_lawful _) fun _ => .pure _) _ _) fun _ =>
          .bind (.modify fun _ => leads_pushInt) fun _ => .pure _
  | add n =>
      exact .bind .get fun _ => .bind (Op.checkInt_lawful _) fun _ =>
        .bind (.modify fun _ => leads_pop.trans leads_pushInt) fun _ => .pure _
  | concat parts =>
      exact .bind (Op.mapM_lawful TextPart.render_lawful _) fun _ =>
        .bind (.modify fun _ => leads_pushText) fun _ => .pure _

/-! ## Steps on classes, memory and handles -/

theorem ClassStep.peer_lawful (p : PeerTerm) : (ClassStep.peer p).Lawful := .ofExcept _

theorem ClassStep.run_lawful (s : ClassStep) : s.run.Lawful := by
  cases s with
  | install => exact silently_lawful (script_lawful Act.installClasses_lawful)
  | define d p =>
      refine silently_lawful ?_
      cases p with
      | none => exact .bind (.pure _) fun _ => script_lawful (Act.defineClass_lawful _)
      | some p =>
          exact .bind (.bind (ClassStep.peer_lawful p) fun _ => .pure _) fun _ =>
            script_lawful (Act.defineClass_lawful _)
  | newInstance =>
      exact silently_lawful (.bind .get fun _ => script_lawful (Act.newInstance_lawful _ _ _))
  | isInstance => exact reply_lawful (script_lawful (Act.isInstance_lawful _))
  | isType => exact reply_lawful (script_lawful (Act.isType_lawful _ _))
  | bindPeer p =>
      exact silently_lawful (.bind (ClassStep.peer_lawful p) fun _ => Act.bindPeer_lawful _)
  | installPeer metatable p =>
      exact silently_lawful (.bind (ClassStep.peer_lawful p) fun _ =>
        script_lawful (Act.installPeer_lawful _ _))

theorem Location.resolve_lawful (l : Location) : l.resolve.Lawful := by
  cases l with
  | block => exact .bind .get fun _ => .pure _
  | handle => exact Op.blockAt_lawful _

theorem MemoryStep.run_lawful (s : MemoryStep) : s.run.Lawful := by
  cases s with
  | allocate => exact .bind (.modifyGet fun _ => leads_allocate) fun _ => .pure _
  | shared => exact .bind (.modifyGet fun _ => leads_newCounted) fun _ => .pure _
  | sharedInfo a =>
      refine .bind .get fun m => ?_
      cases m.counted? (a.resolve m) with
      | some c => exact .pure _
      | none => exact .pure _
  | peek l => exact .bind l.resolve_lawful fun _ => .bind .get fun _ => .pure _
  | poke l | link l =>
      exact .bind l.resolve_lawful fun _ => .bind (.modify fun _ => leads_writeBytes) fun _ => .pure _
  | load l =>
      exact .bind l.resolve_lawful fun _ => .bind (.modify fun _ => leads_pushInt) fun _ => .pure _
  | store l =>
      exact .bind (Op.checkInt_lawful _) fun _ => .bind l.resolve_lawful fun _ =>
        .bind (.modify fun _ => leads_writeBytes) fun _ => .pure _

theorem HandleStep.run_lawful (s : HandleStep) : s.run.Lawful := by
  cases s with
  | vector i => exact .bind (Act.objectAt_lawful _ i) fun _ => .bind .get fun _ => .pure _
  | vectorOrNil i =>
      refine .bind (Act.objectOrNil_lawful _ i) fun a => ?_
      cases a with
      | some a => exact .bind .get fun _ => .pure _
      | none => exact .pure _
  | counted i => exact .bind (Act.objectAt_lawful _ i) fun _ => .bind .get fun _ => .pure _
  | setCounted i value =>
      exact .bind (Act.objectAt_lawful _ i) fun _ =>
        .bind (.modify fun _ => leads_storeCounted) fun _ => .pure _
  | target i | countedTarget i =>
      exact .bind (.lift (Op.boxTarget_lawful i)) fun _ =>
        .ite (.pure _) (.bind .get fun _ => .pure _)
  | setTarget => exact silently_lawful (.bind .get fun _ => .lift (Op.setBoxTarget_lawful _ _))
  | setTargetFrom => exact silently_lawful (Act.setBoxFrom_lawful _ _ _)
  | setCountedTarget =>
      exact silently_lawful (.bind .get fun _ => .lift (Op.setSharedTarget_lawful _ _ _))
  | setCountedTargetFrom => exact silently_lawful (Act.setSharedFrom_lawful _ _ _)
  | copy v => exact silently_lawful (Act.copyVector_lawful v)
  | fillOrCopy => exact reply_lawful (Act.fillOrCopy_lawful _ _ _)
  | anchor name t raw identity =>
      exact .bind (Act.anchorBlock_lawful t) fun _ =>
        .bind (.modify fun _ => leads_writeBytes.trans (Change.host _ _ _ _ _).leads) fun _ =>
          .pure _
  | release => exact silently_lawful (.bind .get fun _ => Act.releaseAnchor_lawful _)

theorem MachineStep.run_lawful (s : MachineStep) : s.run.Lawful := by
  cases s with
  | collect => exact .bind Act.collect_lawful fun _ => .pure _
  | live | summary | limits => exact query_lawful
  | close => exact silently_lawful Act.close_lawful

theorem BasicStep.run_lawful (s : BasicStep) : s.run.Lawful := by
  cases s with
  | stack s => exact script_lawful s.run_lawful
  | query s => exact script_lawful s.run_lawful
  | table s => exact script_lawful s.run_lawful
  | metatable s => exact script_lawful s.run_lawful
  | name s => exact script_lawful s.run_lawful
  | call s => exact s.run_lawful
  | raise s => exact script_lawful s.run_lawful
  | argument s => exact script_lawful (.lift s.run_lawful)
  | classes s => exact s.run_lawful
  | memory s => exact script_lawful (.lift s.run_lawful)
  | handle s => exact script_lawful s.run_lawful
  | machine s => exact script_lawful s.run_lawful
  | note message =>
      exact .bind (.modify fun _ => (Change.host _ _ _ _ _).leads) fun _ => .pure _

/-! ## Programs -/

namespace Act

theorem journal_lawful (r : Reply) : (journal r).Lawful :=
  .ite (.pure _) (.modify fun _ => (Change.host _ _ _ _ _).leads)

theorem failure_lawful {ε : Type} (e : StepError) : (failure e : Act ε Reply).Lawful :=
  .bind .get fun _ => .pure _

theorem times_lawful {x : Act StepError Unit} (hx : x.Lawful) (n : Nat) : (times x n).Lawful := by
  induction n with
  | zero => exact .pure _
  | succ n ih => exact .bind hx fun _ => ih

end Act

namespace Step

mutual
theorem run_lawful (s : Step) : s.run.Lawful := by
  cases s with
  | basic s =>
      rw [run]
      exact .bind s.run_lawful fun _ => .pure _
  | attempt body =>
      rw [run]
      refine .bind (.attempt (runAll_lawful body)) fun result => ?_
      cases result with
      | ok _ => exact .pure _
      | error e => exact .bind (Act.failure_lawful e) fun _ => .pure _
  | loop n body =>
      rw [run]
      exact .bind (Act.times_lawful (.bind (runAll_lawful body) fun _ => .pure _) n) fun _ => .pure _
  | ifTop body otherwise =>
      rw [run]
      exact .bind .get fun _ => .bind (.ite (runAll_lawful body) (runAll_lawful otherwise))
        fun _ => .pure _
  | ifEqual i j body otherwise =>
      rw [run]
      exact .bind .get fun _ => .bind (.ite (runAll_lawful body) (runAll_lawful otherwise))
        fun _ => .pure _
  | finish results =>
      rw [run]
      exact .bind .get fun _ => .pure _
termination_by sizeOf s

theorem runAll_lawful (steps : List Step) : (runAll steps).Lawful := by
  cases steps with
  | nil =>
      rw [runAll]
      exact .pure _
  | cons s rest =>
      rw [runAll]
      refine .bind (run_lawful s) fun flow => ?_
      cases flow with
      | finish results => exact .pure _
      | next r => exact .bind (Act.journal_lawful r) fun _ => runAll_lawful rest
termination_by sizeOf steps
end

end Step

namespace Programs

variable {programs : Programs}

theorem enter_lawful (b : Behaviour) : (enter programs b).Lawful := by
  cases b with
  | code c =>
      cases c with
      | program name => exact .bind (.mapError (Step.runAll_lawful _)) fun _ => .pure _
      | hook h => exact Act.runHook_lawful h
      | traceback => exact Act.traceback_lawful
      | classNew => exact Act.classNew_lawful
      | classIsInstance => exact Act.classIsInstance_lawful
      | classIsType => exact Act.classIsType_lawful
  | readProperty p => exact Act.readProperty_lawful p
  | writeProperty p => exact Act.writeProperty_lawful p
  | readPropertyOrField => exact Act.readPropertyOrField_lawful

/-- The functions of a host that runs programs do runs. -/
theorem host_lawful (nesting : Nat) : (programs.host nesting).Lawful := by
  induction nesting with
  | zero => exact fun _ => .throw _
  | succ nesting ih => exact fun b => enter_lawful b _ ih

end Programs

/-! ## Sessions -/

namespace Session

theorem takeJournal_lawful : takeJournal.Lawful :=
  .modifyGet fun _ => (Change.host _ _ _ _ _).leads

theorem runStep_lawful (s : Step) : (runStep s).Lawful := by
  refine .bind (.attempt s.run_lawful) fun result => ?_
  cases result with
  | ok flow =>
      cases flow with
      | next r => exact .pure _
      | finish results => exact .pure _
  | error e => exact Act.failure_lawful e

theorem runSteps_lawful (steps : List Step) : (runSteps steps).Lawful := by
  induction steps with
  | nil => exact .pure _
  | cons s rest ih =>
      exact .bind (runStep_lawful s) fun _ => .bind takeJournal_lawful fun _ => .bind .get fun _ =>
        .bind ih fun _ => .pure _

theorem whole_lawful (steps : List Step) : (whole steps).Lawful :=
  .bind (runSteps_lawful steps) fun _ => .bind Act.close_lawful fun _ =>
    .bind takeJournal_lawful fun _ => .pure _

end Session

namespace Machine

/-- What lawful operations of a lawful host make of a state is a state. -/
theorem Reachable.after {ε α : Type} {x : Act ε α} {host : Host} {m : Machine} (hm : m.Reachable)
    (hx : x.Lawful) (hhost : host.Lawful) : (Op.after (x host) m).Reachable :=
  hm.runs (hx host hhost m hm.framed)

end Machine

end ScriptHost
