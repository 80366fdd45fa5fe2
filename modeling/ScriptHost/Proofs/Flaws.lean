import ScriptHost.Proofs.Spec.Marshal

/-! # Malformed formats

Where a format is malformed its elements have a leaf with the error. Reading does not get past the
first such leaf, whatever the arguments are; it stops there, or earlier at an argument.
-/

namespace ScriptHost

/-- Whether an error comes from an argument. A table that does not take an element counts as
    unclosed. -/
def FormatError.ofArgument : FormatError → Bool
  | .badIndex | .nullKey | .nanKey | .nullUserdata | .missingArgument | .argumentMismatch
  | .badGlobal | .unclosedTable => true
  | _ => false

namespace Element

mutual
/-- The first error of an element that no arguments can help. -/
def flaw (asKey : Bool) : Element → Option FormatError
  | .scalar d =>
      match d with
      | .nil => if asKey then some .nullKey else none
      | .openTable | .closeTable | .condition | .key | .unknown _ => some .badType
      | _ => none
  | .table es => firstFlaw es
  | .condition e => e.flaw asKey
  | .pair key value => (key.flaw true).or (value.flaw false)
  | .bad e => some e

/-- The first such error of the elements of a table. -/
def firstFlaw : List Element → Option FormatError
  | [] => none
  | e :: es => (e.flaw false).or (firstFlaw es)
end

end Element

/-- The first structural error of a format. -/
def Format.flaw (ds : List Directive) : Option FormatError :=
  Element.firstFlaw (Format.elements ds)

namespace Reading

variable {α β : Type} {x : Reading α} {f : α → Reading β} {p q : Option FormatError} {e : FormatError}
  {mode : Mode}

/-- What reading came to fits a flaw: it got to the end if there is none, and otherwise stopped there
    or at an argument. -/
def Fits (p : Option FormatError) : Except FormatError α → Prop
  | .ok _ => p = none
  | .error e => p = some e ∨ e.ofArgument = true

/-- Whatever the arguments are, reading comes to what fits a flaw. -/
def Finds (p : Option FormatError) (x : Reading α) : Prop :=
  ∀ args host m r rest m', StateT.run (ExceptT.run x) args host m = .ok (r, rest) m' → Fits p r

namespace Finds

theorem pure (a : α) : Finds none (pure a : Reading α) := by
  intro args host m r rest m' h
  cases h
  rfl

theorem argument (he : e.ofArgument = true) : Finds p (throw e : Reading α) := by
  intro args host m r rest m' h
  cases h
  exact .inr he

theorem throw (e : FormatError) : Finds (some e) (throw e : Reading α) := by
  intro args host m r rest m' h
  cases h
  exact .inl rfl

/-- Reading stops at the flaw of the first part, or goes on to that of the second. -/
theorem bind (hx : Finds p x) (hf : ∀ a, Finds q (f a)) : Finds (p.or q) (x >>= f) := by
  intro args host m r rest m' h
  change (StateT.run (ExceptT.run x) args >>= fun result => _) host m = _ at h
  rw [Act.run_bind] at h
  cases hrun : StateT.run (ExceptT.run x) args host m with
  | error e _ => exact e.elim
  | ok result m₁ =>
      obtain ⟨r₁, rest₁⟩ := result
      have hfirst := hx _ _ _ _ _ _ hrun
      rw [hrun] at h
      cases r₁ with
      | ok a =>
          obtain rfl : p = none := hfirst
          exact hf a _ _ _ _ _ _ h
      | error e =>
          cases h
          exact hfirst.imp (fun h => by simp [h]) id

/-- What comes first may only stop at an argument. -/
theorem bind_first (hx : Finds none x) (hf : ∀ a, Finds p (f a)) : Finds p (x >>= f) :=
  hx.bind hf

/-- What comes last may only stop at an argument. -/
theorem bind_last (hx : Finds p x) (hf : ∀ a, Finds none (f a)) : Finds p (x >>= f) := by
  have h := hx.bind hf
  rwa [Option.or_none] at h

theorem perform (x : Act Empty α) : Finds none (perform x) := by
  intro args host m r rest m' h
  change ((x >>= fun a => _) >>= fun result => _) host m = _ at h
  rw [Act.run_bind, Act.run_bind] at h
  cases hrun : x host m with
  | error e _ => exact e.elim
  | ok a m₁ =>
      rw [hrun] at h
      cases h
      rfl

theorem change (g : Machine → Machine) : Finds none (change g) := perform _

theorem machine : Finds none machine := perform _

theorem orFail {x : Act ScriptError α} (he : e.ofArgument = true) : Finds none (orFail e x) :=
  bind_first (perform _) fun r => by
    cases r with
    | ok a => exact pure a
    | error _ => exact argument he

theorem ite {c : Prop} [Decidable c] {x y : Reading α} (hx : Finds p x) (hy : Finds p y) :
    Finds p (if c then x else y) := by
  split
  · exact hx
  · exact hy

end Finds

theorem nextArgument_finds : Finds none nextArgument := by
  intro args host m r rest m' h
  cases args with
  | nil =>
      cases h
      exact .inr rfl
  | cons a args =>
      cases h
      rfl

theorem condition_finds : Finds none condition := by
  refine .bind_first nextArgument_finds fun a => ?_
  cases a with
  | bool b => exact .pure b
  | int | number | text | function | pointer | index => exact .argument rfl

theorem emit_finds (x : Act Empty Unit) : Finds none (emit mode x) := .ite (.pure _) (.perform x)

/-! ## Directives -/

theorem slot_finds (relative : Bool) : Finds none (slot mode relative) := by
  refine .bind_first nextArgument_finds fun a => .bind_first (α := StackIndex) ?_ fun i =>
    .bind_first .machine fun m => ?_
  · unfold argumentIndex
    cases a with
    | index i => exact .pure i
    | int n =>
        dsimp only
        split
        · exact .pure _
        · exact .argument rfl
    | number | bool | text | function | pointer => exact .argument rfl
  · cases resolveIndex m (if relative then m.top + 1 else mode.start) i with
    | none => exact .argument rfl
    | some i =>
        refine .ite ?_ (emit_finds _)
        cases m.value i with
        | nil => exact .bind_first (.argument rfl) fun _ => emit_finds _
        | float d => exact .ite (.bind_first (.argument rfl) fun _ => emit_finds _) (emit_finds _)
        | bool | int | string | light | object | foreign => exact emit_finds _

theorem light_finds (nonNull : Bool) : Finds none (light mode nonNull) := by
  refine .bind_first nextArgument_finds fun a => ?_
  cases a with
  | pointer a =>
      exact .ite (.pure _) (.ite (.ite (.argument rfl) (.ite (.argument rfl)
        (.change _))) (.orFail rfl))
  | int | number | bool | text | function | index => exact .argument rfl

theorem global_finds : Finds none (global mode) := by
  refine .bind_first nextArgument_finds fun a => ?_
  cases a with
  | text name =>
      exact .ite (.pure _) (.bind_first (.orFail rfl) fun _ => .bind_first .machine fun _ =>
        .ite (.bind_first (.change _) fun _ => .argument rfl) (.pure _))
  | int | number | bool | function | pointer | index => exact .argument rfl

theorem number_finds : Finds none (scalar mode .number) := by
  have hpush : ∀ d : Double, Finds none (do
      if mode.asKey && d.isNaN then throw .nanKey
      emit mode (modify (·.push (.ofDouble d))) : Reading Unit) :=
    fun d => .ite (.bind_first (.argument rfl) fun _ => emit_finds _) (emit_finds _)
  refine .bind_first nextArgument_finds fun a => ?_
  cases a with
  | number d => exact .bind_first (.pure d) hpush
  | int i => exact .bind_first (.pure _) hpush
  | bool | text | function | pointer | index =>
      exact .bind_first (.argument rfl) hpush

theorem scalar_finds (d : Directive) :
    Finds ((Element.scalar d).flaw mode.asKey) (scalar mode d) := by
  rw [Element.flaw.eq_def]
  cases d with
  | slotFromStart => exact slot_finds false
  | slotFromTop => exact slot_finds true
  | boolean => exact .bind_first condition_finds fun _ => emit_finds _
  | constTrue | constFalse => exact emit_finds _
  | function =>
      refine .bind_first nextArgument_finds fun a => ?_
      cases a with
      | function code => exact emit_finds _
      | int | number | bool | text | pointer | index => exact .argument rfl
  | integer =>
      refine .bind_first nextArgument_finds fun a => ?_
      cases a with
      | int i => exact emit_finds _
      | number | bool | text | function | pointer | index => exact .argument rfl
  | number => exact number_finds
  | text =>
      refine .bind_first nextArgument_finds fun a => ?_
      cases a with
      | text t => exact emit_finds _
      | int | number | bool | function | pointer | index => exact .argument rfl
  | light => exact light_finds false
  | lightNonNull => exact light_finds true
  | nil =>
      cases hkey : mode.asKey with
      | true =>
          unfold scalar
          rw [if_pos hkey]
          exact .bind (.throw _) fun _ => emit_finds _
      | false =>
          unfold scalar
          rw [hkey]
          exact emit_finds _
  | global => exact global_finds
  | openTable | closeTable | condition | key | unknown => exact .throw _

/-! ## Elements -/

mutual
theorem element_finds (mode : Mode) (e : Element) : Finds (e.flaw mode.asKey) (element mode e) := by
  cases e with
  | scalar d =>
      rw [element]
      exact scalar_finds d
  | table es =>
      rw [element, Element.flaw]
      exact .bind_first (emit_finds _) fun _ => .bind_first .machine fun _ => items_finds _ rfl _ es
  | condition e =>
      rw [element, Element.flaw]
      exact .bind_first condition_finds fun _ => element_finds { mode with suppressed := _ } e
  | pair key value =>
      rw [element, Element.flaw]
      refine .bind (element_finds { mode with asKey := true } key) fun _ => ?_
      refine .bind_last (element_finds { mode with asKey := false } value) fun _ => ?_
      exact .ite (.orFail rfl) (.pure _)
  | bad e =>
      rw [element, Element.flaw]
      exact .throw e
termination_by sizeOf e

theorem items_finds (mode : Mode) (hmode : mode.asKey = false) (table : StackIndex)
    (es : List Element) : Finds (Element.firstFlaw es) (items mode table es) := by
  cases es with
  | nil =>
      rw [items]
      exact .pure _
  | cons e es =>
      rw [items, Element.firstFlaw]
      refine .bind_first .machine fun m => ?_
      refine .bind (hmode ▸ element_finds mode e) fun _ => .bind_first .machine fun m' => ?_
      have hrest := items_finds mode hmode table es
      exact .ite (.bind_first (.orFail rfl) fun _ => hrest) hrest
termination_by sizeOf es
end

/-! ## Formats -/

theorem all_finds (mode : Mode) (hmode : mode.asKey = false) (es : List Element) :
    Finds (Element.firstFlaw es) (all mode es) := by
  induction es with
  | nil => exact .pure _
  | cons e es ih =>
      rw [all, Element.firstFlaw]
      exact .bind (hmode ▸ element_finds mode e) fun _ => ih

/-- A malformed format is not read to its end: reading stops at the first structural error, or at an
    argument before. -/
theorem format_flaw {start : Nat} {ds : List Directive} {flaw : FormatError}
    (h : Format.flaw ds = some flaw) (args : List Argument) (host : Host) (m : Machine) :
    ∃ e m', format start ds args host m = .ok (some e) m' ∧ (e = flaw ∨ e.ofArgument = true) := by
  have hfinds := all_finds { start } rfl (Format.elements ds) args host m
  rw [format, Act.run_bind]
  cases hrun : StateT.run (ExceptT.run (all { start } (Format.elements ds))) args host m with
  | error e _ => exact e.elim
  | ok result m' =>
      obtain ⟨r, rest⟩ := result
      have hfits := hfinds _ _ _ hrun
      rw [show Element.firstFlaw (Format.elements ds) = some flaw from h] at hfits
      cases r with
      | ok _ => cases hfits
      | error e => exact ⟨e, m', rfl, hfits.imp (fun h => (Option.some.inj h).symm) id⟩

end Reading

end ScriptHost
