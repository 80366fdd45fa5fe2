import ScriptHost.Proofs.Format
import ScriptHost.Proofs.Lawful.Marshal
import ScriptHost.Proofs.Spec.Index

/-! # What marshaling leaves on the stack

Every element pushes one value at most, and the values below stay. Operands push exactly one unless
they are suppressed, so that a pair has a key and a value to take off again.
-/

namespace ScriptHost

open Machine
open Act (Ended Pushed Tried)

namespace Op

variable {ε α β : Type} {P : Machine → Prop} {Q : α → Machine → Prop} {R : β → Machine → Prop}
  {E : Machine → Prop} {x : Op ε α} {f : α → Op ε β} {b : Nat} {s : List Value} {v w : Value}

/-- What an operation that calls no function makes of machines that satisfy `P`. -/
def Meets (P : Machine → Prop) (x : Op ε α) (Q : α → Machine → Prop) (E : Machine → Prop) : Prop :=
  ∀ m, P m → Ended Q E (x m)

namespace Meets

theorem get : Meets P (get : Op ε Machine) (fun _ => P) E := fun _ => id

theorem modify {g : Machine → Machine} {Q : PUnit → Machine → Prop} (h : ∀ m, P m → Q ⟨⟩ (g m)) :
    Meets P (modify g : Op ε PUnit) Q E := h

theorem pure {a : α} (h : ∀ m, P m → Q a m) : Meets P (pure a : Op ε α) Q E := h

theorem fail {Q : α → Machine → Prop} {fault : Fault} (h : ∀ m, P m → E m) :
    Meets P (ScriptHost.fail fault : Op ScriptError α) Q E := h

theorem bind (hx : Meets P x Q E) (hf : ∀ a, Meets (Q a) (f a) R E) : Meets P (x >>= f) R E := by
  intro m hp
  have hfirst := hx m hp
  rw [run_bind]
  cases h : x m with
  | ok a m' =>
      rw [h] at hfirst
      exact hf a m' hfirst
  | error e m' =>
      rw [h] at hfirst
      exact hfirst

end Meets

/-! ## Storing in tables -/

theorem tableAt_meets (i : StackIndex) (hE : ∀ m, P m → E m) :
    Meets P (tableAt i) (fun _ => P) E :=
  .bind .get fun m => by
    split
    · exact .pure fun _ => id
    · exact .fail hE

theorem rawStore_meets (slot : Nat) (key v : Value) :
    Meets (Laid b s) (rawStore slot key v) (fun _ => Laid b s) (Over b s) :=
  .bind .get fun m => by
    split
    · exact .fail fun _ hl => hl.over_self
    · exact .modify fun _ hl => hl.of_eq rfl rfl
    · exact .fail fun _ hl => hl.over_self

/-- Key and value are taken off. -/
theorem rawSet_meets (i : StackIndex) (hb : b ≤ s.length) :
    Meets (Laid b (s ++ [v, w])) (rawSet i) (fun _ => Laid b s) (Over b s) :=
  .bind .get fun _ => .bind (tableAt_meets _ fun _ hl => hl.over) fun slot => .bind .get fun _ =>
    .bind (Q := fun _ => Laid b (s ++ [v, w]))
      (fun m hl => (rawStore_meets slot _ _ m hl).imp (fun _ _ => id) fun _ h => h.below)
      fun _ => .modify fun _ hl => hl.pop hb rfl

/-- The value is taken off. -/
theorem append_meets (i : StackIndex) (hb : b ≤ s.length) :
    Meets (Laid b (s ++ [v])) (append i) (fun _ => Laid b s) (Over b s) :=
  .bind .get fun _ => .bind .get fun _ => .bind (tableAt_meets _ fun _ hl => hl.over) fun _ =>
    .bind (Q := fun _ => Laid b (s ++ [v])) (.modify fun _ hl => hl.of_eq rfl rfl) fun _ =>
      .modify fun _ hl => hl.pop hb rfl

end Op

/-- An operation without errors does not fail. -/
theorem Act.Spec.infallible {α : Type} {P : Machine → Prop} {x : Act Empty α}
    {Q : α → Machine → Prop} {E E' : Machine → Prop} (h : Spec P x Q E) : Spec P x Q E' :=
  ⟨h.lawful, h.ok, fun {_ _ e _} => e.elim⟩

namespace Reading

variable {α β : Type} {P : Machine → Prop} {Q : α → Machine → Prop} {R : β → Machine → Prop}
  {E : Machine → Prop} {x : Reading α} {f : α → Reading β}

/-- What reading makes of machines that satisfy `P`, whatever the arguments are. -/
def Spec (P : Machine → Prop) (x : Reading α) (Q : α → Machine → Prop) (E : Machine → Prop) : Prop :=
  ∀ args, Act.Spec P (StateT.run (ExceptT.run x) args) (fun r => Tried Q E r.1) E

namespace Spec

theorem lawful (h : Spec P x Q E) : x.Lawful := fun args => (h args).lawful

theorem pre {P' : Machine → Prop} (h : Spec P x Q E) (hpre : ∀ m, P' m → P m) : Spec P' x Q E :=
  fun args => (h args).pre hpre

theorem post {Q' : α → Machine → Prop} (h : Spec P x Q E) (hok : ∀ a m, Q a m → Q' a m) :
    Spec P x Q' E :=
  fun args => (h args).post (fun r m hr => by
    obtain ⟨r, rest⟩ := r
    cases r with
    | ok a => exact hok a m hr
    | error e => exact hr) fun _ => id

theorem weaken {E' : Machine → Prop} (h : Spec P x Q E) (herror : ∀ m, E m → E' m) : Spec P x Q E' :=
  fun args => (h args).post (fun r m hr => by
    obtain ⟨r, rest⟩ := r
    cases r with
    | ok a => exact hr
    | error e => exact herror m hr) herror

theorem pure {a : α} (h : ∀ m, P m → Q a m) : Spec P (pure a : Reading α) Q E :=
  fun _ => Act.Spec.pure h

theorem throw {e : FormatError} (h : ∀ m, P m → E m) : Spec P (throw e : Reading α) Q E :=
  fun _ => Act.Spec.pure h

theorem bind (hx : Spec P x Q E) (hf : ∀ a, Spec (Q a) (f a) R E) : Spec P (x >>= f) R E := by
  refine fun args => .bind (hx args) fun result => ?_
  obtain ⟨r, rest⟩ := result
  cases r with
  | ok a => exact hf a rest
  | error e => exact .pure fun _ => id

theorem perform {x : Act Empty α} (hx : Act.Spec P x Q E) : Spec P (perform x) Q E :=
  fun _ => .bind (.bind hx fun _ => .pure fun _ => id) fun _ => .pure fun _ => id

theorem change {g : Machine → Machine} {Q : Unit → Machine → Prop} (hg : ∀ m, Leads m (g m))
    (h : ∀ m, m.Framed → P m → Q () (g m)) : Spec P (change g) Q E :=
  perform (.modify hg h)

theorem orFail {e : FormatError} {x : Act ScriptError α} (hx : Act.Spec P x Q E) :
    Spec P (orFail e x) Q E :=
  bind (perform (.attempt hx)) fun r => by
    cases r with
    | ok a => exact pure fun _ => id
    | error _ => exact throw fun _ => id

theorem ite {c : Prop} [Decidable c] {x y : Reading α} (hx : Spec P x Q E) (hy : Spec P y Q E) :
    Spec P (if c then x else y) Q E := by
  split
  · exact hx
  · exact hy

theorem machine : Spec P machine (fun _ => P) E := perform .get

/-- What follows reading the machine may depend on it. -/
theorem machine_bind {f : Machine → Reading β} (hlawful : (Reading.machine >>= f).Lawful)
    (hf : ∀ m, m.Framed → P m → Spec (· = m) (f m) R E) : Spec P (Reading.machine >>= f) R E := fun args =>
  ⟨hlawful args, fun hhost hm hp hrun hc => (hf _ hm hp args).ok hhost hm rfl hrun hc,
    fun hhost hm hp hrun hc => (hf _ hm hp args).error hhost hm rfl hrun hc⟩

end Spec

variable {b : Nat} {s : List Value} {mode : Mode}

theorem nextArgument_spec (hE : ∀ m, P m → E m) : Spec P nextArgument (fun _ => P) E := by
  intro args
  cases args with
  | nil => exact .pure hE
  | cons a rest => exact .pure fun _ => id

theorem condition_spec (hE : ∀ m, P m → E m) : Spec P condition (fun _ => P) E :=
  .bind (nextArgument_spec hE) fun a => by
    cases a with
    | bool b => exact .pure fun _ => id
    | int | number | text | function | pointer | index => exact .throw hE

/-! ## Elements that push a value -/

/-- A value was pushed unless the element is suppressed. -/
def Emitted (mode : Mode) (b : Nat) (s : List Value) (m : Machine) : Prop :=
  mode.suppressed = true ∧ Laid b s m ∨ mode.suppressed = false ∧ Pushed b s m

theorem emit_spec {x : Act Empty Unit} (hx : Act.Spec (Laid b s) x (fun _ => Pushed b s) E) :
    Spec (Laid b s) (emit mode x) (fun _ => Emitted mode b s) E := by
  unfold emit
  split
  · rename_i h
    exact .pure fun _ hl => .inl ⟨h, hl⟩
  · rename_i h
    exact .perform (hx.post (fun _ _ hl => .inr ⟨by simpa using h, hl⟩) fun _ => id)

/-- Reading that pushes a value by a change of the machine. -/
theorem push_spec {g : Machine → Machine} (hg : ∀ m, Leads m (g m))
    (h : ∀ m, Laid b s m → Pushed b s (g m)) :
    Spec (Laid b s) (emit mode (modify g)) (fun _ => Emitted mode b s) (Over b s) :=
  emit_spec (.modify hg fun m _ => h m)

theorem pushed_push {v : Value} (m : Machine) (hl : Laid b s m) : Pushed b s (m.push v) :=
  ⟨v, hl.push⟩

theorem slot_spec (relative : Bool) :
    Spec (Laid b s) (slot mode relative) (fun _ => Emitted mode b s) (Over b s) := by
  have hover : ∀ m, Laid b s m → Over b s m := fun _ hl => hl.over_self
  refine .bind (nextArgument_spec hover) fun a => ?_
  refine .bind (α := StackIndex) (Q := fun _ => Laid b s) ?_ fun i => .bind .machine fun m => ?_
  · cases argumentIndex a with
    | ok i => exact .pure fun _ => id
    | error e => exact .throw hover
  · cases resolveIndex m (if relative then m.top + 1 else mode.start) i with
    | none => exact .throw hover
    | some i =>
        have hemit : ∀ {γ : Type} (_ : γ), Spec (Laid b s) (emit mode (modify (·.pushAt i)))
            (fun _ => Emitted mode b s) (Over b s) :=
          fun _ => push_spec (fun _ => leads_pushAt) fun m => pushed_push m
        have hthrow : ∀ {γ : Type} {e : FormatError},
            Spec (Laid b s) (throw e : Reading γ) (fun _ => Laid b s) (Over b s) := .throw hover
        refine .ite ?_ (hemit ())
        cases m.value i with
        | nil => exact .bind hthrow hemit
        | float d => exact .ite (.bind hthrow hemit) (hemit ())
        | bool | int | string | light | object | foreign => exact hemit ()

theorem pushLight_meets (a : Address) :
    (Op.pushLight a).Meets (Laid b s) (fun _ => Pushed b s) (Over b s) := by
  unfold Op.pushLight
  split
  · exact .modify fun m => pushed_push m
  · exact .fail fun _ hl => hl.over_self

theorem light_spec (nonNull : Bool) :
    Spec (Laid b s) (light mode nonNull) (fun _ => Emitted mode b s) (Over b s) := by
  have hover : ∀ m, Laid b s m → Over b s m := fun _ hl => hl.over_self
  refine .bind (nextArgument_spec hover) fun a => ?_
  cases a with
  | pointer a =>
      dsimp only
      split
      · rename_i h
        exact .pure fun _ hl => .inl ⟨h, hl⟩
      · rename_i h
        have hemitted : ∀ m, Pushed b s m → Emitted mode b s m :=
          fun _ hp => .inr ⟨by simpa using h, hp⟩
        refine .ite (.ite (.throw hover) (.ite (.throw hover) (.change (fun _ => leads_push) ?_))) ?_
        · exact fun m _ hl => hemitted _ (pushed_push m hl)
        · exact .post (.orFail (.lift (Op.pushLight_lawful a) fun m _ => pushLight_meets a m))
            fun _ => hemitted
  | int | number | bool | text | function | index => exact .throw hover

theorem global_spec :
    Spec (Laid b s) (global mode) (fun _ => Emitted mode b s) (Over b s) := by
  have hover : ∀ m, Laid b s m → Over b s m := fun _ hl => hl.over_self
  refine .bind (nextArgument_spec hover) fun a => ?_
  cases a with
  | text name =>
      dsimp only
      split
      · rename_i h
        exact .pure fun _ hl => .inl ⟨h, hl⟩
      · rename_i h
        refine .bind (.orFail ((Act.getGlobal_spec name s).post (fun _ _ => id) hover)) fun _ => ?_
        refine .bind .machine fun _ => .ite (.bind (Q := fun _ => Over b s) (.change (fun _ => leads_pop)
          fun _ _ ⟨v, hl⟩ => hl.over_pop (t := [v]) rfl) fun _ => .throw fun _ => id) ?_
        exact .pure fun _ hp => .inr ⟨by simpa using h, hp⟩
  | int | number | bool | function | pointer | index => exact .throw hover

theorem number_spec :
    Spec (Laid b s) (scalar mode .number) (fun _ => Emitted mode b s) (Over b s) := by
  have hover : ∀ m, Laid b s m → Over b s m := fun _ hl => hl.over_self
  have hemit : ∀ (d : Double) {γ : Type} (_ : γ), Spec (Laid b s)
      (emit mode (modify (·.push (.ofDouble d)))) (fun _ => Emitted mode b s) (Over b s) :=
    fun _ _ _ => push_spec (fun _ => leads_push) fun m => pushed_push m
  have hpush : ∀ d : Double, Spec (Laid b s) (do
      if mode.asKey && d.isNaN then throw .nanKey
      emit mode (modify (·.push (.ofDouble d))) : Reading Unit) (fun _ => Emitted mode b s) (Over b s) :=
    fun d => .ite (.bind (Q := fun _ => Laid b s) (.throw hover) (hemit d)) (hemit d ())
  refine .bind (nextArgument_spec hover) fun a => ?_
  cases a with
  | number d => exact .bind (Q := fun _ => Laid b s) (.pure fun _ => id) hpush
  | int i => exact .bind (Q := fun _ => Laid b s) (.pure fun _ => id) hpush
  | bool | text | function | pointer | index =>
      exact .bind (Q := fun _ => Laid b s) (.throw hover) hpush

theorem pushed_pushInt {i : Int} (m : Machine) (hl : Laid b s m) : Pushed b s (m.pushInt i) := by
  have hboxed : Laid b s (m.ofInt i).2 := hl.of_eq rfl rfl
  exact ⟨_, hboxed.push⟩

theorem pushed_pushText {text : String} (m : Machine) (hl : Laid b s m) :
    Pushed b s (m.pushText text) := by
  have hinterned : Laid b s (m.intern (Utf8.encode text)).2 := hl.of_eq rfl rfl
  exact ⟨_, hinterned.push⟩

theorem scalar_spec (mode : Mode) (d : Directive) (s : List Value) :
    Spec (Laid b s) (scalar mode d) (fun _ => Emitted mode b s) (Over b s) := by
  have hover : ∀ m, Laid b s m → Over b s m := fun _ hl => hl.over_self
  cases d with
  | slotFromStart => exact slot_spec false
  | slotFromTop => exact slot_spec true
  | boolean =>
      exact .bind (condition_spec hover) fun _ => push_spec (fun _ => leads_push) fun m => pushed_push m
  | constTrue | constFalse => exact push_spec (fun _ => leads_push) fun m => pushed_push m
  | function =>
      refine .bind (nextArgument_spec hover) fun a => ?_
      cases a with
      | function code => exact emit_spec (Act.pushNative_spec code s _)
      | int | number | bool | text | pointer | index => exact .throw hover
  | integer =>
      refine .bind (nextArgument_spec hover) fun a => ?_
      cases a with
      | int i => exact push_spec (fun _ => leads_pushInt) fun m => pushed_pushInt m
      | number | bool | text | function | pointer | index => exact .throw hover
  | number => exact number_spec
  | text =>
      refine .bind (nextArgument_spec hover) fun a => ?_
      cases a with
      | text t => exact push_spec (fun _ => leads_pushText) fun m => pushed_pushText m
      | int | number | bool | function | pointer | index => exact .throw hover
  | light => exact light_spec false
  | lightNonNull => exact light_spec true
  | nil =>
      have hemit : ∀ {γ : Type} (_ : γ), Spec (Laid b s) (emit mode (modify (·.push .nil)))
          (fun _ => Emitted mode b s) (Over b s) :=
        fun _ => push_spec (fun _ => leads_push) fun m => pushed_push m
      exact .ite (.bind (Q := fun _ => Laid b s) (.throw hover) hemit) (hemit ())
  | global => exact global_spec
  | openTable | closeTable | condition | key | unknown => exact .throw hover

/-! ## Elements -/

/-- What an element leaves: one value if it emits one, and nothing else. Operands emit one unless
    they are suppressed. -/
def Left (mode : Mode) (e : Element) (b : Nat) (s : List Value) (m : Machine) : Prop :=
  (e.isOperand = true → mode.suppressed = true) ∧ Laid b s m ∨ mode.suppressed = false ∧ Pushed b s m

theorem left_of_emitted {e : Element} {m : Machine} (h : Emitted mode b s m) : Left mode e b s m :=
  h.imp (fun h => ⟨fun _ => h.1, h.2⟩) id

/-- An operand emits. -/
theorem emitted_of_left {e : Element} {m : Machine} (he : e.isOperand = true)
    (h : Left mode e b s m) : Emitted mode b s m :=
  h.imp (fun h => ⟨h.1 he, h.2⟩) id

/-- What follows an element that emits. -/
theorem Spec.of_emitted {Q : α → Machine → Prop}
    (hsuppressed : mode.suppressed = true → Spec (Laid b s) x Q E)
    (hpushed : mode.suppressed = false → ∀ v, Spec (Laid b (s ++ [v])) x Q E) :
    Spec (Emitted mode b s) x Q E := by
  intro args
  cases hm : mode.suppressed with
  | true =>
      refine (hsuppressed hm args).pre fun m h => ?_
      rcases h with h | ⟨hopen, -⟩
      · exact h.2
      · simp [hm] at hopen
  | false =>
      refine (Act.Spec.exists_pre fun v => hpushed hm v args).pre fun m h => ?_
      rcases h with ⟨hclosed, -⟩ | h
      · simp [hm] at hclosed
      · exact h.2

theorem storePair_spec {v w : Value} (hb : b ≤ s.length) :
    Spec (Laid b (s ++ [v] ++ [w])) (orFail .nullKey (liftM (Op.rawSet (.fromTop 3))))
      (fun _ => Laid b s) (Over b s) := by
  rw [List.append_assoc]
  exact .orFail (.lift (Op.rawSet_lawful _) fun m _ => Op.rawSet_meets _ hb m)

/-- A pair leaves nothing: key and value go to the table below them, unless the pair is suppressed. -/
theorem pair_spec {key value : Element} (hb : b ≤ s.length)
    (hkey : Spec (Laid b s) (element { mode with asKey := true } key) (fun _ => Emitted mode b s) (Over b s))
    (hvalue : ∀ t : List Value, b ≤ t.length → Spec (Laid b t) (element { mode with asKey := false } value)
      (fun _ => Emitted mode b t) (Over b t)) :
    Spec (Laid b s) (element mode (.pair key value)) (fun _ => Laid b s) (Over b s) := by
  rw [element]
  refine .bind hkey fun _ => .of_emitted (fun h => ?_) fun h v => ?_
  · refine .bind (hvalue s hb) fun _ => ?_
    simp only [h, Bool.not_true, Bool.false_eq_true, if_false]
    exact .pure fun m hm => (hm.resolve_right fun hopen => by simp_all).2
  · have hb' : b ≤ (s ++ [v]).length := by
      rw [List.length_append]
      omega
    refine .bind ((hvalue _ hb').weaken fun _ h => h.below) fun _ => .of_emitted (fun hclosed => ?_) fun _ w => ?_
    · simp [h] at hclosed
    · simp only [h, Bool.not_false, if_true]
      exact storePair_spec hb

mutual
theorem element_spec (mode : Mode) (e : Element) (s : List Value) (he : e.Regular)
    (hb : b ≤ s.length) : Spec (Laid b s) (element mode e) (fun _ => Left mode e b s) (Over b s) := by
  cases e with
  | scalar d =>
      rw [element]
      exact (scalar_spec mode d s).post fun _ _ => left_of_emitted
  | table es =>
      rw [element]
      cases he with
      | table hes =>
          refine .bind (emit_spec (Act.newTable_spec s _)) fun _ => ?_
          have hitems : ∀ t, b ≤ t.length → Spec (Laid b t) (do
              items { mode with asKey := false } (.fromBottom (← machine).top) es : Reading Unit)
              (fun _ => Laid b t) (Over b t) :=
            fun t ht => .bind .machine fun _ => items_spec _ _ es t hes ht
          refine .of_emitted (fun h => ?_) fun h v => ?_
          · exact (hitems s hb).post fun _ _ hl => .inl ⟨fun _ => h, hl⟩
          · refine ((hitems (s ++ [v]) ?_).post fun _ _ hl => .inr ⟨h, v, hl⟩).weaken fun _ h => h.below
            rw [List.length_append]
            omega
  | condition e =>
      rw [element]
      cases he with
      | condition he =>
          refine .bind (condition_spec fun _ hl => hl.over_self) fun holds =>
            (element_spec _ e s he hb).post fun _ m hleft => ?_
          rcases hleft with ⟨-, hl⟩ | ⟨hopen, hp⟩
          · exact .inl ⟨nofun, hl⟩
          · exact .inr ⟨(Bool.or_eq_false_iff.mp hopen).1, hp⟩
  | pair key value =>
      cases he with
      | pair hkey hvalue hkeyRegular hvalueRegular =>
          have hreadKey := (element_spec { mode with asKey := true } key s hkeyRegular hb).post
            fun _ _ => emitted_of_left hkey
          have hreadValue := fun t ht => (element_spec { mode with asKey := false } value t hvalueRegular ht).post
            fun _ _ => emitted_of_left hvalue
          exact (pair_spec hb hreadKey hreadValue).post fun _ _ hl => .inl ⟨nofun, hl⟩
  | bad e =>
      rw [element]
      exact .throw fun _ hl => hl.over_self
termination_by sizeOf e

theorem items_spec (mode : Mode) (table : StackIndex) (es : List Element) (s : List Value)
    (hes : ∀ e ∈ es, e.Regular) (hb : b ≤ s.length) :
    Spec (Laid b s) (items mode table es) (fun _ => Laid b s) (Over b s) := by
  cases es with
  | nil =>
      rw [items]
      exact .pure fun _ => id
  | cons e es =>
      rw [items]
      have hrest := items_spec mode table es s (fun e he => hes e (List.mem_cons_of_mem _ he)) hb
      refine .machine_bind (items_lawful mode table (e :: es)) fun m _ hm => ?_
      refine .bind ((element_spec mode e s (hes e List.mem_cons_self) hb).pre fun _ h => h ▸ hm)
        fun _ => ?_
      refine .machine_bind (.bind .machine fun _ => .ite (.bind (.orFail (.lift (Op.append_lawful table)))
        fun _ => hrest.lawful) hrest.lawful) fun m' _ hleft => ?_
      have htop := hm.top
      rcases hleft with ⟨-, hl⟩ | ⟨-, v, hl⟩
      · rw [if_neg (by rw [htop, hl.top]; omega)]
        exact hrest.pre fun _ h => h ▸ hl
      · have htop' := hl.top
        rw [List.length_append, List.length_singleton] at htop'
        rw [if_pos (by omega)]
        refine .bind (Q := fun _ => Laid b s) (.pre (.orFail (.lift (Op.append_lawful table) fun m _ =>
          Op.append_meets table hb m)) fun _ h => h ▸ hl) fun _ => hrest
termination_by sizeOf es
end

/-! ## Formats -/

/-- What the elements of a format push lies above what was there. -/
theorem all_spec (mode : Mode) (es : List Element) (s : List Value) (hes : ∀ e ∈ es, e.Regular)
    (hb : b ≤ s.length) :
    Spec (Laid b s) (all mode es) (fun _ m => ∃ t, Laid b (s ++ t) m) (Over b s) := by
  induction es generalizing s with
  | nil => exact .pure fun _ hl => ⟨[], by rw [List.append_nil]; exact hl⟩
  | cons e es ih =>
      have hrest := fun t => ih (s ++ t) (fun e he => hes e (List.mem_cons_of_mem _ he))
        (by rw [List.length_append]; omega)
      refine .bind (Q := fun _ m => ∃ t, Laid b (s ++ t) m)
        ((element_spec mode e s (hes e List.mem_cons_self) hb).post fun _ m hleft => ?_) fun _ => ?_
      · rcases hleft with ⟨-, hl⟩ | ⟨-, v, hl⟩
        · exact ⟨[], by rw [List.append_nil]; exact hl⟩
        · exact ⟨[v], hl⟩
      · refine fun args => .exists_pre fun t => ?_
        refine ((hrest t).weaken fun _ h => h.below).post (fun _ m ⟨t', hl⟩ => ?_) args
        exact ⟨t ++ t', by rw [← List.append_assoc]; exact hl⟩

/-- A format pushes values, or stops at an error with the values below still there. -/
theorem format_spec (start : Nat) (ds : List Directive) (args : List Argument) (s : List Value)
    (hb : b ≤ s.length) (E : Machine → Prop) :
    Act.Spec (Laid b s) (format start ds args)
      (fun problem m => (problem = none → ∃ t, Laid b (s ++ t) m) ∧ Over b s m) E := by
  refine .bind (Act.Spec.infallible (all_spec { start } _ s (Format.elements_regular ds) hb args))
    fun result => ?_
  obtain ⟨r, rest⟩ := result
  cases r with
  | ok _ => exact .pure fun _ ⟨t, hl⟩ => ⟨fun _ => ⟨t, hl⟩, hl.over⟩
  | error _ => exact .pure fun _ hover => ⟨nofun, hover⟩

end Reading

end ScriptHost
