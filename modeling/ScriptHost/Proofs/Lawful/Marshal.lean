import ScriptHost.Invocation
import ScriptHost.Proofs.Lawful.Index

/-! # Marshaling and invocations

Reading an element of a format changes the machine by lawful operations only, whether it succeeds or
not. So the entry points that marshal arguments are lawful too.
-/

namespace ScriptHost

open Machine

namespace Reading

variable {α β : Type}

/-- What reading does to the machine is a run, whatever the arguments are. -/
def Lawful (x : Reading α) : Prop := ∀ args, Act.Lawful (StateT.run (ExceptT.run x) args)

namespace Lawful

theorem pure (a : α) : (pure a : Reading α).Lawful := fun _ => Act.Lawful.pure _

theorem throw (e : FormatError) : (throw e : Reading α).Lawful := fun _ => Act.Lawful.pure _

theorem bind {x : Reading α} {f : α → Reading β} (hx : x.Lawful) (hf : ∀ a, (f a).Lawful) :
    (x >>= f).Lawful := by
  refine fun args => .bind (hx args) fun result => ?_
  obtain ⟨r, rest⟩ := result
  cases r with
  | ok a => exact hf a rest
  | error e => exact .pure _

theorem perform {x : Act Empty α} (hx : x.Lawful) : (perform x).Lawful :=
  fun _ => .bind (.bind hx fun _ => .pure _) fun _ => .pure _

theorem change {f : Machine → Machine} (hf : ∀ m, Leads m (f m)) : (change f).Lawful :=
  perform (.modify hf)

theorem machine : machine.Lawful := perform .get

theorem orFail {e : FormatError} {x : Act ScriptError α} (hx : x.Lawful) : (orFail e x).Lawful :=
  bind (perform (.attempt hx)) fun r => by
    cases r with
    | ok a => exact pure a
    | error _ => exact throw e

theorem ite {c : Prop} [Decidable c] {x y : Reading α} (hx : x.Lawful) (hy : y.Lawful) :
    (if c then x else y).Lawful := by
  split
  · exact hx
  · exact hy

end Lawful

theorem nextArgument_lawful : nextArgument.Lawful := by
  intro args
  cases args with
  | nil => exact Act.Lawful.pure _
  | cons a rest => exact Act.Lawful.pure _

theorem condition_lawful : condition.Lawful :=
  .bind nextArgument_lawful fun a => by
    cases a with
    | bool b => exact .pure _
    | int | number | text | function | pointer | index => exact .throw _

variable {mode : Mode}

theorem emit_lawful {x : Act Empty Unit} (hx : x.Lawful) : (emit mode x).Lawful :=
  .ite (.pure _) (.perform hx)

/-! ## Elements -/

theorem slot_lawful (mode : Mode) (relative : Bool) : (slot mode relative).Lawful := by
  refine .bind nextArgument_lawful fun a => ?_
  refine .bind (α := StackIndex) ?_ fun i => .bind .machine fun m => ?_
  · cases argumentIndex a with
    | ok i => exact .pure _
    | error e => exact .throw _
  · cases resolveIndex m (if relative then m.top + 1 else mode.start) i with
    | none => exact .throw _
    | some i =>
        have hemit : ∀ {γ : Type} (_ : γ), (emit mode (modify (·.pushAt i))).Lawful :=
          fun _ => emit_lawful (.modify fun _ => leads_pushAt)
        refine .ite ?_ (hemit ())
        cases m.value i with
        | nil => exact .bind (.throw _) hemit
        | float d => exact .ite (.bind (.throw _) hemit) (hemit ())
        | bool | int | string | light | object | foreign => exact hemit ()

theorem light_lawful (mode : Mode) (nonNull : Bool) : (light mode nonNull).Lawful := by
  refine .bind nextArgument_lawful fun a => ?_
  cases a with
  | pointer a =>
      exact .ite (.pure _) (.ite (.ite (.throw _) (.ite (.throw _) (.change fun _ => leads_push)))
        (.orFail (.lift (Op.pushLight_lawful a))))
  | int | number | bool | text | function | index => exact .throw _

theorem global_lawful (mode : Mode) : (global mode).Lawful := by
  refine .bind nextArgument_lawful fun a => ?_
  cases a with
  | text name =>
      exact .ite (.pure _) (.bind (.orFail (Act.getGlobal_lawful name)) fun _ => .bind .machine fun _ =>
        .ite (.bind (.change fun _ => leads_pop) fun _ => .throw _) (.pure _))
  | int | number | bool | function | pointer | index => exact .throw _

theorem number_lawful (mode : Mode) : (scalar mode .number).Lawful := by
  have hpush : ∀ d : Double, (do
      if mode.asKey && d.isNaN then throw .nanKey
      emit mode (modify (·.push (.ofDouble d))) : Reading Unit).Lawful :=
    fun d => .ite (.bind (.throw _) fun _ => emit_lawful (.modify fun _ => leads_push))
      (emit_lawful (.modify fun _ => leads_push))
  refine .bind nextArgument_lawful fun a => ?_
  cases a with
  | number d => exact .bind (.pure _) hpush
  | int i => exact .bind (.pure _) hpush
  | bool | text | function | pointer | index => exact .bind (.throw _) hpush

theorem scalar_lawful (mode : Mode) (d : Directive) : (scalar mode d).Lawful := by
  cases d with
  | slotFromStart => exact slot_lawful mode false
  | slotFromTop => exact slot_lawful mode true
  | boolean =>
      exact .bind condition_lawful fun _ => emit_lawful (.modify fun _ => leads_push)
  | constTrue | constFalse => exact emit_lawful (.modify fun _ => leads_push)
  | function =>
      refine .bind nextArgument_lawful fun a => ?_
      cases a with
      | function code => exact emit_lawful (Act.pushNative_lawful code .host)
      | int | number | bool | text | pointer | index => exact .throw _
  | integer =>
      refine .bind nextArgument_lawful fun a => ?_
      cases a with
      | int i => exact emit_lawful (.modify fun _ => leads_pushInt)
      | number | bool | text | function | pointer | index => exact .throw _
  | number => exact number_lawful mode
  | text =>
      refine .bind nextArgument_lawful fun a => ?_
      cases a with
      | text t => exact emit_lawful (.modify fun _ => leads_pushText)
      | int | number | bool | function | pointer | index => exact .throw _
  | light => exact light_lawful mode false
  | lightNonNull => exact light_lawful mode true
  | nil =>
      exact .ite (.bind (.throw _) fun _ => emit_lawful (.modify fun _ => leads_push))
        (emit_lawful (.modify fun _ => leads_push))
  | global => exact global_lawful mode
  | openTable | closeTable | condition | key | unknown => exact .throw _

mutual
theorem element_lawful (mode : Mode) (e : Element) : (element mode e).Lawful := by
  cases e with
  | scalar d =>
      rw [element]
      exact scalar_lawful mode d
  | table es =>
      rw [element]
      exact .bind (emit_lawful Act.newTable_lawful) fun _ => .bind .machine fun _ =>
        items_lawful _ _ es
  | condition e =>
      rw [element]
      exact .bind condition_lawful fun _ => element_lawful _ e
  | pair key value =>
      rw [element]
      exact .bind (element_lawful _ key) fun _ => .bind (element_lawful _ value) fun _ =>
        .ite (.orFail (.lift (Op.rawSet_lawful _))) (.pure _)
  | bad e =>
      rw [element]
      exact .throw e
termination_by sizeOf e

theorem items_lawful (mode : Mode) (table : StackIndex) (es : List Element) :
    (items mode table es).Lawful := by
  cases es with
  | nil =>
      rw [items]
      exact .pure _
  | cons e es =>
      rw [items]
      exact .bind .machine fun _ => .bind (element_lawful mode e) fun _ => .bind .machine fun _ =>
        .ite (.bind (.orFail (.lift (Op.append_lawful table))) fun _ => items_lawful mode table es)
          (items_lawful mode table es)
termination_by sizeOf es
end

/-! ## Formats -/

theorem all_lawful (mode : Mode) (es : List Element) : (all mode es).Lawful := by
  induction es with
  | nil => exact .pure _
  | cons e es ih => exact .bind (element_lawful mode e) fun _ => ih

theorem trace_lawful (mode : Mode) (args : List Argument) (es : List Element) :
    (trace mode args es).Lawful := by
  induction es generalizing args with
  | nil => exact .pure _
  | cons e es ih =>
      refine .bind (element_lawful mode e args) fun result => ?_
      obtain ⟨r, rest⟩ := result
      cases r with
      | ok _ => exact .bind (ih rest) fun _ => .pure _
      | error _ => exact .pure _

theorem format_lawful (start : Nat) (ds : List Directive) (args : List Argument) :
    (format start ds args).Lawful :=
  .bind (all_lawful _ _ args) fun result => by
    obtain ⟨r, rest⟩ := result
    cases r with
    | ok _ => exact .pure _
    | error _ => exact .pure _

end Reading

namespace Act

open Reading (format_lawful)

variable {ε α : Type}

theorem safely_lawful {x : Act Empty α} (hx : x.Lawful) : (safely x : Act ε α).Lawful :=
  .mapError hx

theorem marshal_lawful (ds : List Directive) (args : List Argument) : (marshal ds args).Lawful :=
  .bind .get fun _ => .bind (safely_lawful (format_lawful _ _ _)) fun problem => by
    cases problem with
    | none => exact .bind .get fun _ => .pure _
    | some e => exact .bind (.modify fun _ => leads_setTop) fun _ => .throw _

/-! ## Entry points -/

theorem leads_errorMessage {m : Machine} : Leads m m.errorMessage.2 := by
  unfold errorMessage
  split
  · exact leads_textAt
  · exact .refl

theorem traceback_lawful : traceback.Lawful :=
  .bind .get fun _ => .ite (.bind (.modify fun _ => leads_setTop) fun _ => .pure _)
    (.bind (.modifyGet fun _ => leads_textAt) fun _ => .bind .get fun _ =>
      .bind (.modify fun _ => leads_pushText) fun _ => .pure _)

theorem tracedCall_lawful (count : Nat) (wanted : Int) : (tracedCall count wanted).Lawful :=
  .bind (cachedNative_lawful _) fun _ => .bind .get fun _ =>
    .bind (.lift (Op.insert_lawful _)) fun _ =>
      .bind (.attempt (protectedCall_lawful _ _ _)) fun outcome =>
        .bind (.lift (Op.remove_lawful _)) fun _ => .ofExcept outcome

theorem callProtected_lawful (protection : Protection) (count : Nat) (wanted : Int) :
    (callProtected protection count wanted).Lawful := by
  cases protection with
  | unguarded => exact call_lawful _ _
  | guarded =>
      refine .bind (.attempt (tracedCall_lawful _ _)) fun result => ?_
      cases result with
      | ok _ => exact .pure _
      | error _ => exact .bind (.modifyGet fun _ => leads_errorMessage) fun _ => .throw _

theorem settle_lawful (below : Nat) (outcome : Except ScriptError Unit) :
    (settle below outcome).Lawful := by
  cases outcome with
  | ok _ => exact .bind .get fun _ => .pure _
  | error _ => exact .bind (.modify fun _ => leads_setTop) fun _ => .throw _

theorem callFormatted_lawful (top count : Nat) (wanted : Int) (protection : Protection)
    (problem : Option FormatError) : (callFormatted top count wanted protection problem).Lawful :=
  .bind .get fun _ => by
    cases problem with
    | some e => exact settle_lawful _ _
    | none => exact .bind (.attempt (callProtected_lawful _ _ _)) fun _ => settle_lawful _ _

theorem callMarshaled_lawful (count : Nat) (wanted : Int) (ds : List Directive)
    (args : List Argument) (protection : Protection) :
    (callMarshaled count wanted ds args protection).Lawful := by
  have hcall : ∀ top : Nat, (do
      let problem ← safely (Reading.format (top - count) ds args)
      callFormatted top count wanted protection problem : Act ScriptError Nat).Lawful :=
    fun _ => .bind (safely_lawful (format_lawful _ _ _)) fun _ => callFormatted_lawful _ _ _ _ _
  exact .bind .get fun m => .ite (.bind (.lift (.fail _)) fun _ => hcall _) (hcall _)

theorem pushMethod_lawful (name : String) : (pushMethod name).Lawful :=
  .bind (.attempt (getField_lawful _ _)) fun result => by
    cases result with
    | ok _ => exact .lift (Op.insert_lawful _)
    | error _ => exact .bind (.modify fun _ => leads_pop) fun _ => .throw _

theorem pushCallee_lawful (callee : Callee) : (pushCallee callee).Lawful := by
  cases callee with
  | onTop => exact .pure _
  | global name => exact .bind (getGlobal_lawful _) fun _ => .pure _
  | method source name =>
      exact .bind (getGlobal_lawful _) fun _ => .bind (pushMethod_lawful _) fun _ => .pure _
  | methodAt source name =>
      exact .bind .get fun _ => .bind (getField_lawful _ _) fun _ =>
        .bind (.modify fun _ => leads_pushAt) fun _ => .pure _

theorem invocation_lawful (callee : Callee) (wanted : Int) (ds : List Directive)
    (args : List Argument) (protection : Protection) :
    (invocation callee wanted ds args protection).Lawful :=
  .bind (.modify fun _ => (Change.host _ _ _ _ _).leads) fun _ =>
    .bind (pushCallee_lawful _) fun _ => callMarshaled_lawful _ _ _ _ _

theorem loadLibraries_lawful (openers : List NativeCode) : (loadLibraries openers).Lawful := by
  induction openers with
  | nil => exact .pure _
  | cons opener rest ih =>
      refine .bind (pushNative_lawful _ _) fun _ => .bind (.attempt (tracedCall_lawful _ _))
        fun result => ?_
      cases result with
      | ok _ => exact ih
      | error _ =>
          exact .bind (.modifyGet fun _ => leads_errorMessage) fun _ =>
            .bind (.modify fun _ => leads_pop) fun _ => .pure _

end Act

end ScriptHost
