import ScriptHost.Proofs.Emission
import ScriptHost.Proofs.Grammar

/-! # Reading fits the arguments

Whatever functions run meanwhile, an element is read to its end only if the arguments fit it, and it
takes as many of them as it has directives that take one. A condition that suppresses an element
changes neither.
-/

namespace ScriptHost

namespace Element

variable {d : Directive} {asKey suppressed : Bool} {a : Argument} {rest args : List Argument}

theorem fits_taking (hscalar : d.isScalar = true) (htakes : d.takesArgument = true)
    (ha : d.accepts a = true) (hp : Spot.Admissible ⟨d, some a, asKey, suppressed⟩) :
    (scalar d).Fits asKey suppressed (a :: rest) ∧ rest = (a :: rest).drop (scalar d).arity := by
  refine ⟨?_, ?_⟩
  · rw [Fits, if_pos htakes]
    exact ⟨hscalar, (supplies_cons htakes).mpr ⟨a, rest, rfl, ha, supplies_nil⟩, hp⟩
  · rw [arity, directives, List.countP_cons_of_pos htakes]
    rfl

/-- Neither a number nor a pointer: of these more is asked than that their kind is accepted. -/
def IsOrdinary (a : Argument) : Prop := (∀ d, a ≠ .number d) ∧ ∀ p, a ≠ .pointer p

theorem fits_ordinary (hscalar : d.isScalar = true) (htakes : d.takesArgument = true)
    (ha : d.accepts a = true) (hordinary : IsOrdinary a) :
    (scalar d).Fits asKey suppressed (a :: rest) ∧ rest = (a :: rest).drop (scalar d).arity := by
  refine fits_taking hscalar htakes ha ⟨fun _ hd => ?_, fun _ _ x hx => ?_, fun _ _ hp => ?_, fun _ _ _ hp => ?_,
    fun _ p hp => ?_⟩
  · obtain rfl : d = .nil := hd
    cases htakes
  · exact absurd (Option.some.inj hx) (hordinary.1 x)
  · exact hordinary.2 0 (Option.some.inj hp)
  · exact hordinary.2 0 (Option.some.inj hp)
  · exact absurd (Option.some.inj hp) (hordinary.2 p)

theorem fits_plain (hscalar : d.isScalar = true) (htakes : d.takesArgument = false)
    (hkey : asKey = true → d ≠ .nil) :
    (scalar d).Fits asKey suppressed args ∧ args = args.drop (scalar d).arity := by
  refine ⟨?_, ?_⟩
  · rw [Fits, if_neg (by simp [htakes])]
    exact ⟨hscalar, (supplies_cons_plain htakes).mpr supplies_nil, hkey, by simp, by simp, by simp, by simp⟩
  · rw [arity, directives, List.countP_cons_of_neg (by simp [htakes])]
    rfl

end Element

namespace Reading

open Element (FitsAll listDirectives)

variable {α β : Type} {x : Reading α} {f : α → Reading β} {args : List Argument} {mode : Mode}
  {T : α → List Argument → Prop} {U : β → List Argument → Prop} {e : FormatError}

/-- If reading with some arguments succeeds, its result and the arguments that are left satisfy `T`. -/
def Ensures (args : List Argument) (x : Reading α) (T : α → List Argument → Prop) : Prop :=
  ∀ ⦃host m a rest m'⦄, Yields x host args m a rest m' → T a rest

namespace Ensures

theorem mono {T' : α → List Argument → Prop} (hx : Ensures args x T) (h : ∀ a rest, T a rest → T' a rest) :
    Ensures args x T' :=
  fun _ _ a rest _ hrun => h a rest (hx hrun)

theorem pure {a : α} (h : T a args) : Ensures args (pure a) T := by
  intro host m b rest m' hrun
  cases hrun
  exact h

theorem throw : Ensures args (throw e : Reading α) T := by
  intro host m b rest m' hrun
  cases hrun

theorem bind (hx : Ensures args x T) (hf : ∀ a rest, T a rest → Ensures rest (f a) U) :
    Ensures args (x >>= f) U := by
  intro host m b rest m' hrun
  change (StateT.run (ExceptT.run x) args >>= fun result => _) host m = _ at hrun
  rw [Act.run_bind] at hrun
  cases hfirst : StateT.run (ExceptT.run x) args host m with
  | error e _ => exact e.elim
  | ok result m₁ =>
      obtain ⟨r, rest₁⟩ := result
      rw [hfirst] at hrun
      cases r with
      | ok a => exact hf a rest₁ (hx hfirst) hrun
      | error e => cases hrun

theorem perform {y : Act Empty α} (h : ∀ a, T a args) : Ensures args (perform y) T := by
  intro host m b rest m' hrun
  change ((y >>= fun a => _) >>= fun result => _) host m = _ at hrun
  rw [Act.run_bind, Act.run_bind] at hrun
  cases hfirst : y host m with
  | error e _ => exact e.elim
  | ok a m₁ =>
      rw [hfirst] at hrun
      cases hrun
      exact h a

theorem machine_bind {f : Machine → Reading β} (h : ∀ m, Ensures args (f m) U) :
    Ensures args (Reading.machine >>= f) U :=
  bind (T := fun _ rest => rest = args) (perform fun _ => rfl) fun m _ hrest => hrest ▸ h m

theorem orFail {y : Act ScriptError α} (h : ∀ a, T a args) : Ensures args (orFail e y) T :=
  bind (T := fun _ rest => rest = args) (perform fun _ => rfl) fun r _ hrest => by
    cases r with
    | ok a => exact hrest ▸ pure (h a)
    | error _ => exact throw

/-- An operation that always fails gives no result. -/
theorem orFail_error {y : Act ScriptError α} (raised : ScriptError)
    (h : ∀ host m, y host m = .error raised m) : Ensures args (Reading.orFail e y) T := by
  refine bind (T := fun r _ => r = .error raised) (fun host m r rest m' hrun => ?_) fun r rest hr => ?_
  · have hattempt : (Act.attempt y : Act Empty (Except ScriptError α)) host m = .ok (.error raised) m := by
      rw [Act.run_attempt, h]
    have hyields : Yields (Reading.perform (Act.attempt y)) host args m (.error raised) args m :=
      .perform hattempt
    rw [Yields, hrun] at hyields
    cases hyields
    rfl
  · subst hr
    exact throw

/-- Nothing is read where there is no argument. -/
theorem nextArgument {f : Argument → Reading β}
    (h : ∀ a rest, args = a :: rest → Ensures rest (f a) U) :
    Ensures args (Reading.nextArgument >>= f) U := by
  cases args with
  | nil => exact bind (T := fun _ _ => False) throw fun _ _ => False.elim
  | cons a rest =>
      refine bind (T := fun b rest' => b = a ∧ rest' = rest) ?_ fun b rest' hb => ?_
      · intro host m b rest' m' hrun
        cases hrun
        exact ⟨rfl, rfl⟩
      · obtain ⟨rfl, rfl⟩ := hb
        exact h _ _ rfl

theorem condition {f : Bool → Reading β}
    (h : ∀ b rest, args = .bool b :: rest → Ensures rest (f b) U) :
    Ensures args (Reading.condition >>= f) U := by
  refine bind (T := fun b rest => args = .bool b :: rest) (nextArgument fun a rest hargs => ?_) h
  cases a with
  | bool b => exact pure hargs
  | int | number | text | function | pointer | index => exact throw

theorem ite {c : Prop} [Decidable c] {x y : Reading α} (hx : Ensures args x T) (hy : Ensures args y T) :
    Ensures args (if c then x else y) T := by
  split
  · exact hx
  · exact hy

theorem emit {y : Act Empty Unit} {T : Unit → List Argument → Prop} (h : T () args) :
    Ensures args (emit mode y) T := by
  unfold Reading.emit
  split
  · exact pure h
  · exact perform fun _ => h

end Ensures

/-- A scalar is read only if its argument fits. -/
def FitsScalar (mode : Mode) (d : Directive) (args rest : List Argument) : Prop :=
  (Element.scalar d).Fits mode.asKey mode.suppressed args ∧
    rest = args.drop (Element.scalar d).arity

theorem emit_ensures {d : Directive} {y : Act Empty Unit} {rest : List Argument}
    (h : FitsScalar mode d args rest) :
    Ensures rest (emit mode y) (fun _ rest => FitsScalar mode d args rest) := .emit h

theorem slot_ensures {d : Directive} (relative : Bool)
    (hd : d = .slotFromStart ∨ d = .slotFromTop) :
    Ensures args (slot mode relative) (fun _ rest => FitsScalar mode d args rest) := by
  refine .nextArgument fun a rest hargs => ?_
  have hfits : d.accepts a = true → FitsScalar mode d args rest := by
    intro ha
    have hpointer : ∀ p, a ≠ .pointer p := by
      rintro p rfl
      rcases hd with rfl | rfl <;> cases ha
    subst hargs
    rcases hd with rfl | rfl <;>
      exact Element.fits_taking rfl rfl ha ⟨by simp, by simp, by simp, by simp, by simp [hpointer]⟩
  refine .bind (α := StackIndex) (T := fun _ rest' => d.accepts a = true ∧ rest' = rest) ?_
    fun i rest' ⟨ha, hrest⟩ => hrest ▸ .machine_bind fun m => ?_
  · unfold argumentIndex
    cases a with
    | index i => exact .pure ⟨by rcases hd with rfl | rfl <;> rfl, rfl⟩
    | int n =>
        dsimp only
        split
        · exact .pure ⟨by rcases hd with rfl | rfl <;> rfl, rfl⟩
        · exact .throw
    | number | bool | text | function | pointer => exact .throw
  · have hemit := fun (y : Act Empty Unit) => emit_ensures (y := y) (hfits ha)
    have hthrow : ∀ {γ : Type} {e : FormatError} {f : γ → Reading Unit},
        Ensures rest (throw e >>= f) (fun _ rest => FitsScalar mode d args rest) :=
      fun {γ e f} => Ensures.bind (T := fun _ _ => False) Ensures.throw fun _ _ h => h.elim
    cases resolveIndex m (if relative then m.top + 1 else mode.start) i with
    | none => exact .throw
    | some i =>
        refine .ite ?_ (hemit _)
        cases m.value i with
        | nil => exact hthrow
        | float d => exact .ite hthrow (hemit _)
        | bool | int | string | light | object | foreign => exact hemit _

theorem light_ensures (nonNull : Bool) :
    Ensures args (light mode nonNull) (fun _ rest =>
      FitsScalar mode (if nonNull then .lightNonNull else .light) args rest) := by
  refine .nextArgument fun a rest hargs => ?_
  cases a with
  | pointer p =>
      subst hargs
      have hfits : (mode.suppressed = false → p < Value.lightBound ∧
          (p = 0 → nonNull = false ∧ mode.asKey = false)) →
          FitsScalar mode (if nonNull then .lightNonNull else .light) (.pointer p :: rest) rest := by
        intro h
        cases nonNull with
        | true =>
            refine Element.fits_taking rfl rfl rfl ⟨by simp, by simp, fun hopen _ hp => ?_, by simp, ?_⟩
            · cases hp
              exact Bool.noConfusion ((h hopen).2 rfl).1
            · rintro hopen _ ⟨⟩
              exact (h hopen).1
        | false =>
            refine Element.fits_taking rfl rfl rfl ⟨by simp, by simp, by simp, fun hopen hkey _ hp => ?_, ?_⟩
            · cases hp
              simp [((h hopen).2 rfl).2] at hkey
            · rintro hopen _ ⟨⟩
              exact (h hopen).1
      change Ensures rest (if mode.suppressed then pure ()
        else if p = 0 then
          if nonNull then throw .nullUserdata
          else if mode.asKey then throw .nullKey
          else change (·.push .nil)
        else orFail .argumentMismatch (Op.pushLight p)) _
      cases hsuppressed : mode.suppressed with
      | true => exact .pure (hfits fun hopen => by simp [hopen] at hsuppressed)
      | false =>
          by_cases hnull : p = 0
          · rw [if_neg Bool.false_ne_true, if_pos hnull]
            cases hnonNull : nonNull with
            | true => exact .throw
            | false =>
                cases hkey : mode.asKey with
                | true => exact .throw
                | false =>
                    refine .perform fun _ => hnonNull ▸ hfits fun _ => ⟨?_, fun _ => ⟨hnonNull, hkey⟩⟩
                    rw [hnull]
                    decide
          · rw [if_neg Bool.false_ne_true, if_neg hnull]
            by_cases hp : p < Value.lightBound
            · exact .orFail fun _ => hfits fun _ => ⟨hp, fun h => absurd h hnull⟩
            · exact .orFail_error (.ofFault (.addressTooLarge p)) fun host m => Op.pushLight_refused hp
  | int | number | bool | text | function | index => exact .throw

theorem global_ensures :
    Ensures args (global mode) (fun _ rest => FitsScalar mode .global args rest) := by
  refine .nextArgument fun a rest hargs => ?_
  cases a with
  | text name =>
      subst hargs
      have hfits : FitsScalar mode .global (.text name :: rest) rest :=
        Element.fits_ordinary rfl rfl rfl ⟨by simp, by simp⟩
      refine .ite (.pure hfits) (.bind (T := fun _ rest' => rest' = rest) (.orFail fun _ => rfl)
        fun _ rest' hrest => ?_)
      subst hrest
      refine .machine_bind fun m => .ite (.bind (T := fun _ _ => True) (.perform fun _ => trivial)
        fun _ _ _ => .throw) (.pure hfits)
  | int | number | bool | function | pointer | index => exact .throw

theorem number_ensures :
    Ensures args (scalar mode .number) (fun _ rest => FitsScalar mode .number args rest) := by
  refine .nextArgument fun a rest hargs => ?_
  have hpush : ∀ d : Double, (mode.asKey = true → d.isNaN = false → FitsScalar mode .number args rest) →
      (mode.asKey = false → FitsScalar mode .number args rest) →
      Ensures rest (do
        if mode.asKey && d.isNaN then throw .nanKey
        emit mode (modify (·.push (.ofDouble d))) : Reading Unit)
        (fun _ rest => FitsScalar mode .number args rest) := by
    intro d hkey hplain
    cases hmode : mode.asKey with
    | false => exact .emit (hplain hmode)
    | true =>
        cases hnan : d.isNaN with
        | true => exact .bind (T := fun _ _ => False) .throw fun _ _ h => h.elim
        | false => exact .emit (hkey hmode hnan)
  cases a with
  | number d =>
      subst hargs
      refine .bind (T := fun d' rest' => d' = d ∧ rest' = rest) (.pure ⟨rfl, rfl⟩) fun _ _ h => ?_
      obtain ⟨rfl, rfl⟩ := h
      refine hpush _ (fun _ hnan => ?_) fun hplain => ?_
      · exact Element.fits_taking rfl rfl rfl ⟨by simp, by simp [hnan], by simp, by simp, by simp⟩
      · exact Element.fits_taking rfl rfl rfl ⟨by simp, by simp [hplain], by simp, by simp, by simp⟩
  | int i =>
      subst hargs
      have hfits : FitsScalar mode .number (.int i :: rest) rest :=
        Element.fits_ordinary rfl rfl rfl ⟨by simp, by simp⟩
      refine .bind (T := fun _ rest' => rest' = rest) (.pure rfl) fun d _ hrest => ?_
      exact hrest ▸ hpush d (fun _ _ => hfits) fun _ => hfits
  | bool | text | function | pointer | index =>
      exact .bind (T := fun _ _ => False) .throw fun _ _ h => h.elim

theorem scalar_ensures (mode : Mode) (d : Directive) (args : List Argument) :
    Ensures args (scalar mode d) (fun _ rest => FitsScalar mode d args rest) := by
  cases d with
  | slotFromStart => exact slot_ensures false (.inl rfl)
  | slotFromTop => exact slot_ensures true (.inr rfl)
  | boolean =>
      refine .condition fun b rest hargs => .emit ?_
      subst hargs
      exact Element.fits_ordinary rfl rfl rfl ⟨by simp, by simp⟩
  | constTrue | constFalse =>
      exact .emit (Element.fits_plain rfl rfl (by simp))
  | function =>
      refine .nextArgument fun a rest hargs => ?_
      subst hargs
      cases a with
      | function code =>
          exact .emit (Element.fits_ordinary rfl rfl rfl ⟨by simp, by simp⟩)
      | int | number | bool | text | pointer | index => exact .throw
  | integer =>
      refine .nextArgument fun a rest hargs => ?_
      subst hargs
      cases a with
      | int i => exact .emit (Element.fits_ordinary rfl rfl rfl ⟨by simp, by simp⟩)
      | number | bool | text | function | pointer | index => exact .throw
  | number => exact number_ensures
  | text =>
      refine .nextArgument fun a rest hargs => ?_
      subst hargs
      cases a with
      | text t => exact .emit (Element.fits_ordinary rfl rfl rfl ⟨by simp, by simp⟩)
      | int | number | bool | function | pointer | index => exact .throw
  | light => exact light_ensures false
  | lightNonNull => exact light_ensures true
  | nil =>
      change Ensures args (do
        if mode.asKey then throw .nullKey
        emit mode (modify (·.push .nil)) : Reading Unit) _
      cases hkey : mode.asKey with
      | true => exact .bind (T := fun _ _ => False) .throw fun _ _ h => h.elim
      | false =>
          exact .emit (Element.fits_plain rfl rfl (by simp [hkey]))
  | global => exact global_ensures
  | openTable | closeTable | condition | key | unknown => exact .throw

/-! ## Elements -/

mutual
/-- An element is read to its end only if the arguments fit it, and takes as many as it has directives
    that take one. -/
theorem element_ensures (mode : Mode) (e : Element) (args : List Argument) :
    Ensures args (element mode e) (fun _ rest =>
      e.Fits mode.asKey mode.suppressed args ∧ rest = args.drop e.arity) := by
  cases e with
  | scalar d =>
      rw [element]
      exact scalar_ensures mode d args
  | table es =>
      rw [element]
      refine .bind (T := fun _ rest => rest = args) (.emit rfl) fun _ rest hrest => ?_
      subst hrest
      refine .machine_bind fun m => (items_ensures { mode with asKey := false } _ es rest rfl).mono
        fun _ _ h => ?_
      rw [Element.Fits, Element.arity_table]
      exact h
  | condition e =>
      rw [element]
      refine .condition fun b rest hargs => (element_ensures _ e rest).mono fun _ rest' h => ?_
      rw [Element.Fits, Element.arity_condition, hargs]
      exact ⟨⟨b, rest, rfl, h.1⟩, h.2⟩
  | pair key value =>
      rw [element]
      refine .bind (element_ensures _ key args) fun _ rest hkey => ?_
      refine .bind (element_ensures _ value rest) fun _ rest' hvalue => ?_
      have hfits : (Element.pair key value).Fits mode.asKey mode.suppressed args ∧
          rest' = args.drop (Element.pair key value).arity := by
        rw [Element.Fits, Element.arity_pair, ← List.drop_drop, ← hkey.2]
        exact ⟨⟨hkey.1, hvalue.1⟩, hvalue.2⟩
      exact .ite (.orFail fun _ => hfits) (.pure hfits)
  | bad e =>
      rw [element]
      exact .throw
termination_by sizeOf e

theorem items_ensures (mode : Mode) (table : StackIndex) (es : List Element) (args : List Argument)
    (hplain : mode.asKey = false) :
    Ensures args (items mode table es) (fun _ rest => FitsAll mode.suppressed es args ∧
      rest = args.drop ((listDirectives es).countP Directive.takesArgument)) := by
  cases es with
  | nil =>
      rw [items]
      exact .pure ⟨by simp only [FitsAll], rfl⟩
  | cons e es =>
      rw [items]
      refine .machine_bind fun _ => .bind (element_ensures mode e args) fun _ rest he => .machine_bind fun _ => ?_
      have hrest : Ensures rest (items mode table es) (fun _ rest' => FitsAll mode.suppressed (e :: es) args ∧
          rest' = args.drop ((listDirectives (e :: es)).countP Directive.takesArgument)) :=
        (items_ensures mode table es rest hplain).mono fun _ rest' h => by
          rw [FitsAll, Element.countP_listDirectives_cons, ← List.drop_drop, ← he.2]
          exact ⟨⟨hplain ▸ he.1, h.1⟩, h.2⟩
      exact .ite (.bind (T := fun _ rest' => rest' = rest) (.orFail fun _ => rfl) fun _ _ h => h ▸ hrest) hrest
termination_by sizeOf es
end

/-- The same of a whole format. -/
theorem all_ensures (mode : Mode) (es : List Element) (args : List Argument)
    (hplain : mode.asKey = false) :
    Ensures args (all mode es) (fun _ rest => FitsAll mode.suppressed es args ∧
      rest = args.drop ((listDirectives es).countP Directive.takesArgument)) := by
  induction es generalizing args with
  | nil => exact .pure ⟨by simp only [FitsAll], rfl⟩
  | cons e es ih =>
      refine .bind (element_ensures mode e args) fun _ rest he => (ih rest).mono fun _ _ h => ?_
      rw [FitsAll, Element.countP_listDirectives_cons, ← List.drop_drop, ← he.2]
      exact ⟨⟨hplain ▸ he.1, h.1⟩, h.2⟩

end Reading

end ScriptHost
