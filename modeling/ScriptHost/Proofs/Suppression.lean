import ScriptHost.Program
import ScriptHost.Proofs.Outcome

/-! # Elements that a condition suppresses

A suppressed element takes the directives and the arguments that it would take otherwise, and leaves the
machine alone. What it asks of its arguments does not depend on the machine, except where it names stack
slots: these are looked up although nothing is pushed, in a stack that lacks what the element would have
pushed before. So an element that can be read when its condition holds can be skipped exactly if the
slots that it names are there without it.
-/

namespace ScriptHost

open Machine

/-- An argument names a slot of a machine's frame, counted back from a position; as a key the value in
    the slot must be fit to be one. -/
def Reading.Locates (m : Machine) (origin : Nat) (asKey : Bool) (a : Argument) : Prop :=
  ∃ i j, argumentIndex a = .ok i ∧ resolveIndex m origin i = some j ∧
    (asKey = true → Key.ofValue? (m.value j) ≠ none)

/-- A scalar names no slot, or one that a machine has. -/
def Spot.Readable (p : Spot) (m : Machine) (start : Nat) : Prop :=
  match p.directive with
  | .slotFromStart => ∀ a, p.argument = some a → Reading.Locates m start p.asKey a
  | .slotFromTop => ∀ a, p.argument = some a → Reading.Locates m (m.top + 1) p.asKey a
  | _ => True

namespace Reading

variable {host : Host} {m m' : Machine} {args rest : List Argument} {mode : Mode} {d : Directive}
  {x y : Reading Unit} {fits fits' : Prop} {relative : Bool} {e : FormatError}

/-- Reading leaves the machine as it is, and it succeeds exactly if `fits` holds. -/
def Settled (host : Host) (m : Machine) (args : List Argument) (x : Reading Unit) (fits : Prop) : Prop :=
  Meets host args (· = m) x (fun _ _ m' => m' = m ∧ fits) (fun m' => m' = m ∧ ¬ fits)

namespace Settled

theorem congr (h : Settled host m args x fits) (hiff : fits ↔ fits') : Settled host m args x fits' :=
  Meets.post h (fun _ _ _ h => ⟨h.1, hiff.mp h.2⟩) fun _ h => ⟨h.1, fun hfits => h.2 (hiff.mpr hfits)⟩

/-- What fails stops what follows. -/
theorem throw_bind {α : Type} {f : α → Reading Unit} (h : ¬ fits) :
    Settled host m args (throw e >>= f) fits :=
  Meets.bind (Q := fun _ _ _ => False) (Meets.throw fun _ hm => ⟨hm, h⟩) fun _ _ _ h => h.elim

theorem pure_bind {α : Type} {a : α} {f : α → Reading Unit} (h : Settled host m args (f a) fits) :
    Settled host m args (pure a >>= f) fits := by
  refine Meets.bind (Q := fun b rest m' => (b = a ∧ rest = args) ∧ m' = m)
    (Meets.pure fun _ hm => ⟨⟨rfl, rfl⟩, hm⟩) fun b rest m' hm' => ?_
  obtain ⟨⟨rfl, rfl⟩, rfl⟩ := hm'
  exact h m' rfl

theorem pure (h : fits) : Settled host m args (pure ()) fits := Meets.pure fun _ hm => ⟨hm, h⟩

theorem throw (h : ¬ fits) : Settled host m args (throw e) fits := Meets.throw fun _ hm => ⟨hm, h⟩

theorem ite {c : Prop} [Decidable c] (hx : c → Settled host m args x fits)
    (hy : ¬ c → Settled host m args y fits) : Settled host m args (if c then x else y) fits :=
  Meets.ite hx hy

theorem machine_bind {f : Machine → Reading Unit} (h : Settled host m args (f m) fits) :
    Settled host m args (machine >>= f) fits :=
  Meets.machine_bind fun _ hm => hm ▸ h

theorem nextArgument {f : Argument → Reading Unit} (hnone : args = [] → ¬ fits)
    (h : ∀ a rest, args = a :: rest → Settled host m rest (f a) fits) :
    Settled host m args (nextArgument >>= f) fits :=
  Meets.nextArgument (fun hargs _ hm => ⟨hm, hnone hargs⟩) h

theorem condition {f : Bool → Reading Unit} (hnone : (∀ b rest, args ≠ .bool b :: rest) → ¬ fits)
    (h : ∀ b rest, args = .bool b :: rest → Settled host m rest (f b) fits) :
    Settled host m args (condition >>= f) fits :=
  Meets.condition (fun hargs _ hm => ⟨hm, hnone hargs⟩) h

/-- One reading after another, where the first takes a known number of arguments. -/
theorem seq {n : Nat} (hx : Settled host m args x fits)
    (htakes : Ensures args x fun _ rest => rest = args.drop n)
    (hy : fits → Settled host m (args.drop n) y fits') :
    Settled host m args (x >>= fun _ => y) (fits ∧ fits') := by
  refine Meets.bind (Q := fun _ rest m' => (m' = m ∧ fits) ∧ rest = args.drop n)
    ((Meets.ensures hx htakes).post (fun _ _ _ => id) fun _ h => ⟨h.1, fun hfits => h.2 hfits.1⟩)
    fun _ rest m' h => ?_
  obtain ⟨⟨rfl, hfits⟩, rfl⟩ := h
  exact (hy hfits).congr (by simp [hfits]) m' rfl

theorem emit {z : Act Empty Unit} (hsuppressed : mode.suppressed = true) (h : fits) :
    Settled host m args (emit mode z) fits := by
  rw [Reading.emit, if_pos hsuppressed]
  exact pure h

/-- A reading that succeeds leaves the machine alone. -/
theorem unmoved (h : Settled host m args x fits) (hrun : Yields x host args m () rest m') :
    m' = m ∧ fits := by
  obtain ⟨r, rest', m₁, hmeets, htried⟩ := h m rfl
  rw [Yields, hmeets] at hrun
  cases hrun
  exact htried

theorem yields (h : Settled host m args x fits) (hfits : fits) : ∃ rest, Yields x host args m () rest m := by
  obtain ⟨r, rest, m₁, hmeets, htried⟩ := h m rfl
  cases r with
  | ok a =>
      obtain rfl := htried.1
      exact ⟨rest, hmeets⟩
  | error e => exact absurd hfits htried.2

theorem yields_iff (h : Settled host m args x fits) :
    (∃ rest m', Yields x host args m () rest m') ↔ fits := by
  constructor
  · rintro ⟨rest, m', hrun⟩
    exact (h.unmoved hrun).2
  · intro hfits
    obtain ⟨rest, hrun⟩ := h.yields hfits
    exact ⟨rest, m, hrun⟩

end Settled

/-! ## Scalars -/

/-- Slots are looked up even where nothing is pushed. -/
theorem slot_settled (hsuppressed : mode.suppressed = true) : Settled host m args (slot mode relative)
    (∃ a rest, args = a :: rest ∧
      Locates m (if relative then m.top + 1 else mode.start) mode.asKey a) := by
  refine .nextArgument (by simp +contextual) fun a rest hargs => ?_
  subst hargs
  suffices h : Settled host m rest _ (Locates m (if relative then m.top + 1 else mode.start) mode.asKey a) from
    h.congr (by simp)
  cases hindex : argumentIndex a with
  | error e =>
      refine Settled.throw_bind (α := StackIndex) ?_
      rintro ⟨i, _, hi, _⟩
      rw [hindex] at hi
      cases hi
  | ok i =>
      have hlocates : ∀ j, resolveIndex m (if relative then m.top + 1 else mode.start) i = some j →
          (Locates m (if relative then m.top + 1 else mode.start) mode.asKey a ↔
            (mode.asKey = true → Key.ofValue? (m.value j) ≠ none)) := by
        intro j hj
        constructor
        · rintro ⟨i', j', hi', hj', hkey⟩
          rw [hindex] at hi'
          cases hi'
          rw [hj] at hj'
          cases hj'
          exact hkey
        · exact fun hkey => ⟨i, j, hindex, hj, hkey⟩
      refine Settled.pure_bind (a := i) (Settled.machine_bind ?_)
      cases hresolve : resolveIndex m (if relative then m.top + 1 else mode.start) i with
      | none =>
          refine Settled.throw ?_
          rintro ⟨i', j', hi', hj', _⟩
          rw [hindex] at hi'
          cases hi'
          rw [hresolve] at hj'
          cases hj'
      | some j =>
          suffices h : Settled host m rest _ (mode.asKey = true → Key.ofValue? (m.value j) ≠ none) from
            h.congr (hlocates j hresolve).symm
          refine Settled.ite (fun hkey => ?_) fun hkey => .emit hsuppressed fun h => absurd h hkey
          cases hvalue : m.value j with
          | nil => exact .throw_bind fun h => h hkey (by simp [Key.ofValue?])
          | float d =>
              refine .ite (fun hnan => .throw_bind fun h => h hkey ?_) fun hnan => .emit hsuppressed fun _ => ?_
              · simp [Key.ofValue?, hnan]
              · rw [Key.ofValue?, if_neg hnan]
                split <;> simp
          | bool | int | string | light | object | foreign =>
              exact .emit hsuppressed fun _ => by simp [Key.ofValue?]

theorem accepts_of_argumentIndex {a : Argument} {i : StackIndex} (h : argumentIndex a = .ok i)
    (hd : d = .slotFromStart ∨ d = .slotFromTop) : d.accepts a = true := by
  cases a with
  | int | index => rcases hd with rfl | rfl <;> rfl
  | number | bool | text | function | pointer => cases h

/-- What is asked of an element that is skipped: arguments that fit it, and the slots that it names. -/
def Skippable (m : Machine) (mode : Mode) (e : Element) (args : List Argument) : Prop :=
  e.Fits mode.asKey mode.suppressed args ∧
    ∀ p ∈ e.spots mode.asKey mode.suppressed args, p.Readable m mode.start

theorem skippable_slot (hd : d = .slotFromStart ∨ d = .slotFromTop) :
    Skippable m mode (.scalar d) args ↔ ∃ a rest, args = a :: rest ∧
      Locates m (if d = .slotFromTop then m.top + 1 else mode.start) mode.asKey a := by
  have htakes : d.takesArgument = true := by rcases hd with rfl | rfl <;> rfl
  rw [Skippable, Element.spots, if_pos htakes]
  simp only [List.mem_singleton, forall_eq]
  constructor
  · rintro ⟨hfits, hreadable⟩
    rw [Element.Fits, supplies_cons htakes] at hfits
    obtain ⟨-, ⟨a, rest, rfl, -, -⟩, -⟩ := hfits
    refine ⟨a, rest, rfl, ?_⟩
    rcases hd with rfl | rfl <;> exact hreadable a rfl
  · rintro ⟨a, rest, rfl, hlocates⟩
    obtain ⟨i, -, hi, -⟩ := id hlocates
    refine ⟨(Element.fits_taking (by rcases hd with rfl | rfl <;> rfl) htakes
      (accepts_of_argumentIndex hi hd) ?_).1, ?_⟩
    · refine ⟨?_, ?_, ?_, ?_, fun _ p hp => ?_⟩
      · rcases hd with rfl | rfl <;> simp
      · rcases hd with rfl | rfl <;> simp
      · rcases hd with rfl | rfl <;> simp
      · rcases hd with rfl | rfl <;> simp
      · cases hp
        cases hi
    · rcases hd with rfl | rfl
      · rintro _ ⟨⟩
        exact hlocates
      · rintro _ ⟨⟩
        exact hlocates

/-- Nothing but slots depends on the machine. -/
theorem skippable_other (h : d ≠ .slotFromStart) (h' : d ≠ .slotFromTop) :
    Skippable m mode (.scalar d) args ↔ (Element.scalar d).Fits mode.asKey mode.suppressed args := by
  rw [Skippable, Element.spots]
  simp only [List.mem_singleton, forall_eq, and_iff_left_iff_imp]
  intro _
  unfold Spot.Readable
  cases d with
  | slotFromStart => exact absurd rfl h
  | slotFromTop => exact absurd rfl h'
  | boolean | constTrue | constFalse | function | integer | number | text | light | lightNonNull
  | nil | global | openTable | closeTable | condition | key | unknown => trivial

theorem light_settled (hsuppressed : mode.suppressed = true) (nonNull : Bool) :
    Settled host m args (light mode nonNull)
      ((Element.scalar (if nonNull then .lightNonNull else .light)).Fits mode.asKey mode.suppressed args) := by
  have htakes : (if nonNull then Directive.lightNonNull else .light).takesArgument = true := by
    cases nonNull <;> rfl
  refine .nextArgument (not_fits_of_none htakes) fun a rest hargs => ?_
  subst hargs
  cases a with
  | pointer p =>
      refine .ite (fun _ => .pure ?_) fun h => absurd hsuppressed h
      cases nonNull <;>
        exact (Element.fits_taking rfl rfl rfl ⟨by simp, by simp, by simp [hsuppressed], by simp [hsuppressed],
          by simp [hsuppressed]⟩).1
  | int | number | bool | text | function | index =>
      exact .throw (not_fits_of_refused htakes rfl (by cases nonNull <;> rfl))

theorem number_settled (hsuppressed : mode.suppressed = true) : Settled host m args (scalar mode .number)
    ((Element.scalar .number).Fits mode.asKey mode.suppressed args) := by
  refine .nextArgument (not_fits_of_none rfl) fun a rest hargs => ?_
  subst hargs
  cases a with
  | number x =>
      refine .pure_bind (.ite (fun hnan => .throw_bind fun hfits => ?_) fun hnan => .emit hsuppressed ?_)
      · obtain ⟨hkey, hnan⟩ := (Bool.and_eq_true _ _).mp hnan
        have hnumber := (fits_admissible rfl hfits).number hkey rfl x rfl
        rw [hnan] at hnumber
        cases hnumber
      · refine (Element.fits_taking rfl rfl rfl ⟨by simp, ?_, by simp, by simp, by simp⟩).1
        rintro hkey - _ ⟨⟩
        simpa [show mode.asKey = true from hkey] using hnan
  | int i =>
      refine .pure_bind (.ite (fun hnan => ?_) fun _ => .emit hsuppressed ?_)
      · rw [Double.ofInt, Double.isNaN_ofRatio, Bool.and_false] at hnan
        cases hnan
      · exact (Element.fits_ordinary rfl rfl rfl ⟨by simp, by simp⟩).1
  | bool | text | function | pointer | index =>
      exact Settled.throw_bind (α := Double) (not_fits_of_refused rfl rfl rfl)

/-- A suppressed scalar asks for an argument that fits, and for the slot that it names. -/
theorem scalar_settled (hsuppressed : mode.suppressed = true) (d : Directive) (args : List Argument) :
    Settled host m args (scalar mode d) (Skippable m mode (.scalar d) args) := by
  have hother : d ≠ .slotFromStart → d ≠ .slotFromTop → Settled host m args (scalar mode d)
      ((Element.scalar d).Fits mode.asKey mode.suppressed args) →
      Settled host m args (scalar mode d) (Skippable m mode (.scalar d) args) :=
    fun h h' hsettled => hsettled.congr (skippable_other h h').symm
  cases d with
  | slotFromStart => exact (slot_settled hsuppressed).congr (skippable_slot (.inl rfl)).symm
  | slotFromTop => exact (slot_settled hsuppressed).congr (skippable_slot (.inr rfl)).symm
  | boolean =>
      refine hother nofun nofun (.condition (fun h => not_fits_of_head rfl fun a rest hargs => ?_)
        fun b rest hargs => .emit hsuppressed ?_)
      · cases a with
        | bool b => exact absurd hargs (h b rest)
        | int | number | text | function | pointer | index => rfl
      · subst hargs
        exact (Element.fits_ordinary rfl rfl rfl ⟨by simp, by simp⟩).1
  | constTrue | constFalse =>
      refine hother nofun nofun (.emit hsuppressed ?_)
      exact (Element.fits_plain rfl rfl (by simp)).1
  | function =>
      refine hother nofun nofun (.nextArgument (not_fits_of_none rfl) fun a rest hargs => ?_)
      cases a with
      | function code =>
          refine .emit hsuppressed ?_
          exact hargs ▸ (Element.fits_ordinary rfl rfl rfl ⟨by simp, by simp⟩).1
      | int | number | bool | text | pointer | index => exact .throw (not_fits_of_refused rfl hargs rfl)
  | integer =>
      refine hother nofun nofun (.nextArgument (not_fits_of_none rfl) fun a rest hargs => ?_)
      cases a with
      | int i =>
          refine .emit hsuppressed ?_
          exact hargs ▸ (Element.fits_ordinary rfl rfl rfl ⟨by simp, by simp⟩).1
      | number | bool | text | function | pointer | index => exact .throw (not_fits_of_refused rfl hargs rfl)
  | number => exact hother nofun nofun (number_settled hsuppressed)
  | text =>
      refine hother nofun nofun (.nextArgument (not_fits_of_none rfl) fun a rest hargs => ?_)
      cases a with
      | text t =>
          refine .emit hsuppressed ?_
          exact hargs ▸ (Element.fits_ordinary rfl rfl rfl ⟨by simp, by simp⟩).1
      | int | number | bool | function | pointer | index => exact .throw (not_fits_of_refused rfl hargs rfl)
  | light => exact hother nofun nofun (light_settled hsuppressed false)
  | lightNonNull => exact hother nofun nofun (light_settled hsuppressed true)
  | nil =>
      refine hother nofun nofun (.ite (fun hkey => .throw_bind fun hfits => ?_)
        fun hkey => .emit hsuppressed ?_)
      · rw [Element.Fits] at hfits
        exact hfits.2.2.nil hkey rfl
      · exact (Element.fits_plain rfl rfl (by simp [hkey])).1
  | global =>
      refine hother nofun nofun (.nextArgument (not_fits_of_none rfl) fun a rest hargs => ?_)
      cases a with
      | text name =>
          refine .ite (fun _ => .pure ?_) fun h => absurd hsuppressed h
          exact hargs ▸ (Element.fits_ordinary rfl rfl rfl ⟨by simp, by simp⟩).1
      | int | number | bool | function | pointer | index => exact .throw (not_fits_of_refused rfl hargs rfl)
  | openTable | closeTable | condition | key | unknown =>
      exact hother nofun nofun (.throw fun hfits => by rw [Element.Fits] at hfits; cases hfits.1)

/-! ## Elements -/

section

variable {key value e : Element} {es : List Element} {b : Bool}

/-- The same of elements one after another. -/
def SkippableAll (m : Machine) (mode : Mode) (es : List Element) (args : List Argument) : Prop :=
  Element.FitsAll mode.suppressed es args ∧
    ∀ p ∈ Element.spotsAll mode.suppressed es args, p.Readable m mode.start

theorem skippable_table : Skippable m mode (.table es) args ↔
    SkippableAll m { mode with asKey := false } es args := by
  rw [Skippable, Element.Fits, Element.spots]
  rfl

theorem skippable_condition : Skippable m mode (.condition e) (.bool b :: args) ↔
    Skippable m { mode with suppressed := mode.suppressed || !b } e args := by
  have hhead : ((Argument.bool b :: args).head? != some (.bool true)) = !b := by cases b <;> rfl
  rw [Skippable, Element.Fits, Element.spots, hhead]
  constructor
  · rintro ⟨⟨b, rest, hargs, hfits⟩, hspots⟩
    cases hargs
    exact ⟨hfits, hspots⟩
  · rintro ⟨hfits, hspots⟩
    exact ⟨⟨b, args, rfl, hfits⟩, hspots⟩

theorem skippable_pair : Skippable m mode (.pair key value) args ↔
    Skippable m { mode with asKey := true } key args ∧
      Skippable m { mode with asKey := false } value (args.drop key.arity) := by
  rw [Skippable, Element.Fits, Element.spots]
  simp only [List.mem_append, or_imp, forall_and]
  exact and_and_and_comm

theorem skippableAll_cons : SkippableAll m mode (e :: es) args ↔
    Skippable m { mode with asKey := false } e args ∧ SkippableAll m mode es (args.drop e.arity) := by
  rw [SkippableAll, Element.FitsAll, Element.spotsAll]
  simp only [List.mem_append, or_imp, forall_and]
  exact and_and_and_comm

end

mutual
/-- A suppressed element leaves the machine alone, and is read to its end exactly if it can be skipped. -/
theorem element_settled (mode : Mode) (hsuppressed : mode.suppressed = true) (e : Element)
    (args : List Argument) : Settled host m args (element mode e) (Skippable m mode e args) := by
  cases e with
  | scalar d =>
      rw [element]
      exact scalar_settled hsuppressed d args
  | table es =>
      rw [element, emit, if_pos hsuppressed]
      refine .pure_bind (.machine_bind ?_)
      exact (items_settled { mode with asKey := false } hsuppressed _ es args rfl).congr skippable_table.symm
  | condition e =>
      rw [element]
      refine .condition (fun hargs hskip => ?_) fun b rest hargs => ?_
      · rw [Skippable, Element.Fits] at hskip
        obtain ⟨⟨b, rest, h, -⟩, -⟩ := hskip
        exact hargs b rest h
      · subst hargs
        refine (element_settled _ ?_ e rest).congr skippable_condition.symm
        rw [hsuppressed, Bool.true_or]
  | pair key value =>
      rw [element]
      have hkey : Ensures args (element { mode with asKey := true } key) fun _ rest =>
          rest = args.drop key.arity := (element_ensures _ key args).mono fun _ _ h => h.2
      have hvalue : Ensures (args.drop key.arity) (element { mode with asKey := false } value)
          fun _ rest => rest = (args.drop key.arity).drop value.arity :=
        (element_ensures _ value _).mono fun _ _ h => h.2
      have hfirst := element_settled { mode with asKey := true } hsuppressed key args
      refine Settled.congr (.seq hfirst hkey fun _ =>
        .seq (element_settled { mode with asKey := false } hsuppressed value _) hvalue fun _ => ?_)
        ((and_congr_right fun _ => and_iff_left trivial).trans skippable_pair.symm)
      rw [if_neg (by simp [hsuppressed])]
      exact .pure trivial
  | bad e =>
      rw [element]
      refine .throw fun hskip => ?_
      rw [Skippable, Element.Fits] at hskip
      exact hskip.1
termination_by sizeOf e

theorem items_settled (mode : Mode) (hsuppressed : mode.suppressed = true) (table : StackIndex)
    (es : List Element) (args : List Argument) (hplain : mode.asKey = false) :
    Settled host m args (items mode table es) (SkippableAll m mode es args) := by
  cases es with
  | nil =>
      rw [items]
      exact .pure ⟨by simp only [Element.FitsAll], by simp [Element.spotsAll]⟩
  | cons e es =>
      rw [items]
      have helement : Ensures args (element mode e) fun _ rest => rest = args.drop e.arity :=
        (element_ensures mode e args).mono fun _ _ h => h.2
      have hfirst : { mode with asKey := false } = mode := by rw [← hplain]
      refine .machine_bind (Settled.congr (.seq (element_settled mode hsuppressed e args) helement fun _ =>
        .machine_bind ?_) (by rw [skippableAll_cons, hfirst]))
      -- Nothing was pushed, so there is nothing to append.
      rw [if_neg (Nat.lt_irrefl _)]
      exact items_settled mode hsuppressed table es _ hplain
termination_by sizeOf es
end

end Reading

namespace Element

mutual
/-- Less is asked of an element that is suppressed. -/
theorem Fits.suppress {asKey suppressed : Bool} {e : Element} {args : List Argument}
    (h : e.Fits asKey suppressed args) : e.Fits asKey true args := by
  cases e with
  | scalar d =>
      rw [Fits] at h ⊢
      obtain ⟨hscalar, hsupplies, hp⟩ := h
      exact ⟨hscalar, hsupplies, hp.nil, hp.number, by simp, by simp, by simp⟩
  | table es =>
      rw [Fits] at h ⊢
      exact fitsAll_suppress h
  | condition e =>
      rw [Fits] at h ⊢
      obtain ⟨b, rest, hargs, he⟩ := h
      exact ⟨b, rest, hargs, by rw [Bool.true_or]; exact he.suppress⟩
  | pair key value =>
      rw [Fits] at h ⊢
      exact ⟨h.1.suppress, h.2.suppress⟩
  | bad e =>
      rw [Fits] at h
      exact h.elim
termination_by sizeOf e

theorem fitsAll_suppress {suppressed : Bool} {es : List Element} {args : List Argument}
    (h : FitsAll suppressed es args) : FitsAll true es args := by
  cases es with
  | nil => simp only [FitsAll]
  | cons e es =>
      rw [FitsAll] at h ⊢
      exact ⟨h.1.suppress, fitsAll_suppress h.2⟩
termination_by sizeOf es
end

end Element

namespace Reading

open Format (Role)

variable {host : Host} {m m' : Machine} {args rest : List Argument} {mode : Mode} {e : Element}

/-- There are as many arguments as the directives take that they suffice for. -/
theorem takes_of_supplies {ds : List Directive} (h : Supplies args ds) :
    ∃ given, args = given ++ args.drop (ds.countP Directive.takesArgument) ∧
      given.length = ds.countP Directive.takesArgument := by
  obtain ⟨used, rest, rfl, hused⟩ := h
  have hlength : used.length = ds.countP Directive.takesArgument := by
    rw [List.countP_eq_length_filter, hused.length_eq]
  exact ⟨used, by rw [← hlength, List.drop_left], hlength⟩

/-- Whether an element is suppressed or not, and whatever else happens, reading it takes the same
    directives of the format, and one argument for each of them that takes one. Suppressed, it changes
    nothing. A whole format takes one argument for each of its directives that takes one. -/
theorem arguments_aligned :
    (∀ depth role d ds, ∃ used : List Directive, ∀ host mode args m rest m',
      Yields (element mode (Format.element depth role d ds).1) host args m () rest m' →
        d :: ds = used ++ (Format.element depth role d ds).2.1 ∧
        (∃ given, args = given ++ rest ∧ given.length = used.countP Directive.takesArgument) ∧
        (mode.suppressed = true → m' = m)) ∧
    ∀ host start ds args m rest m',
      Yields (all { start } (Format.elements ds)) host args m () rest m' →
        ∃ given, args = given ++ rest ∧ given.length = ds.countP Directive.takesArgument := by
  constructor
  · intro depth role d ds
    refine ⟨(Format.element depth role d ds).1.directives, fun host mode args m rest m' hrun => ?_⟩
    obtain ⟨hfits, rfl⟩ := element_ensures mode _ args hrun
    obtain ⟨hcomplete, hsupplies, -⟩ := (Element.fits_iff _ _ _ _).mp hfits
    exact ⟨(Format.element_complete depth role d ds hcomplete).2, takes_of_supplies hsupplies,
      fun hsuppressed => ((element_settled mode hsuppressed _ args).unmoved hrun).1⟩
  · intro host start ds args m rest m' hrun
    obtain ⟨hfits, rfl⟩ := all_ensures { start } _ args rfl hrun
    obtain ⟨hcomplete, hsupplies, -⟩ := (Element.fitsAll_iff _ _ _).mp hfits
    obtain ⟨-, hds⟩ := Format.elements_complete ds hcomplete
    rw [hds] at hsupplies ⊢
    exact takes_of_supplies hsupplies

/-- A table with a number, and another one that does not count. -/
def sparse : Element := .table [.scalar .integer, .condition (.scalar .integer)]

def sparseArguments : List Argument := [.int 1, .bool false, .int 5, .int 6]

theorem sparse_wellFormed : sparse.WellFormed 0 .plain := by
  refine .table (by decide) fun e he => ?_
  simp only [List.mem_cons, List.not_mem_nil, or_false] at he
  rcases he with rfl | rfl
  · exact .scalar rfl
  · exact .condition (.scalar rfl)

theorem reads_sparse : Format.Reads (Format.element 0 .plain .openTable
    [.integer, .condition, .integer, .closeTable, .nil]) sparse [.nil] := by
  obtain ⟨d, ds, hds, -, hreads⟩ := Format.reads_element sparse_wellFormed [.nil]
  simp only [sparse, Element.directives, Element.listDirectives, List.nil_append, List.cons_append,
    List.append_nil] at hds
  cases hds
  exact hreads

/-- The table takes three arguments whether it is suppressed or not. -/
theorem sparse_aligned : ∃ used : List Directive,
    (∃ m', Yields (element { start := 1 } sparse) (Programs.host [] 1) sparseArguments (create {}) ()
      [.int 6] m') ∧
    Yields (element { start := 1, suppressed := true } sparse) (Programs.host [] 1) sparseArguments
      (create {}) () [.int 6] (create {}) ∧
    [.openTable, .integer, .condition, .integer, .closeTable, .nil] = used ++ [.nil] ∧
    ∃ given, sparseArguments = given ++ [.int 6] ∧
      given.length = used.countP Directive.takesArgument := by
  have hread : ∃ m', Yields (element { start := 1 } sparse) (Programs.host [] 1) sparseArguments
      (create {}) () [.int 6] m' := by
    simp only [sparse, element, items]
    exact ⟨_, rfl⟩
  have hskipped : Yields (element { start := 1, suppressed := true } sparse) (Programs.host [] 1)
      sparseArguments (create {}) () [.int 6] (create {}) := by
    simp only [sparse, element, items]
    rfl
  obtain ⟨used, haligned⟩ := arguments_aligned.1 0 .plain .openTable
    [.integer, .condition, .integer, .closeTable, .nil]
  rw [reads_sparse.1, reads_sparse.2] at haligned
  obtain ⟨hused, hgiven, -⟩ := haligned _ { start := 1, suppressed := true } _ _ _ _ hskipped
  exact ⟨used, hread, hskipped, hused, hgiven⟩

/-- An element that can be read when its condition holds can be skipped when it does not exactly if the
    slots that it names are there although nothing of it was pushed. -/
theorem condition_skipped_iff
    (hread : Yields (element mode (.condition e)) host (.bool true :: args) m () rest m') :
    (∃ left m₁, Yields (element mode (.condition e)) host (.bool false :: args) m () left m₁) ↔
      ∀ p ∈ e.spots mode.asKey true args, p.Readable m mode.start := by
  obtain ⟨hfits, -⟩ := element_ensures mode _ _ hread
  rw [Element.Fits] at hfits
  obtain ⟨_, _, ⟨⟩, hfits⟩ := hfits
  have hskip : Settled host m args (element { mode with suppressed := true } e)
      (Skippable m { mode with suppressed := true } e args) := element_settled _ rfl e args
  have hcondition : Settled host m (.bool false :: args) (element mode (.condition e))
      (Skippable m { mode with suppressed := true } e args) := by
    rw [element]
    refine .condition (fun h => absurd rfl (h false args)) fun b rest hargs => ?_
    cases hargs
    rw [Bool.not_false, Bool.or_true]
    exact hskip
  exact hcondition.yields_iff.trans (and_iff_right hfits.suppress)

/-- A table that is to hold itself. -/
def reflexive : Element := .table [.scalar .slotFromTop]

/-- The slot of the table is there only if the table was pushed. -/
theorem reflexive_skipped :
    (∃ rest m', Yields (element { start := 1 } (.condition reflexive)) (Programs.host [] 1)
      [.bool true, .int (-1)] (create {}) () rest m') ∧
    ¬ ∃ left m₁, Yields (element { start := 1 } (.condition reflexive)) (Programs.host [] 1)
      [.bool false, .int (-1)] (create {}) () left m₁ := by
  have hread : ∃ m', Yields (element { start := 1 } (.condition reflexive)) (Programs.host [] 1)
      [.bool true, .int (-1)] (create {}) () [] m' := by
    simp only [reflexive, element, items]
    exact ⟨_, rfl⟩
  obtain ⟨m', hread⟩ := hread
  refine ⟨⟨_, m', hread⟩, fun hskipped => ?_⟩
  have hspot := (condition_skipped_iff hread).mp hskipped ⟨.slotFromTop, some (.int (-1)), false, true⟩
    (by simp [reflexive, Element.spots, Element.spotsAll, Directive.takesArgument])
  obtain ⟨i, j, hi, hj, -⟩ := hspot (.int (-1)) rfl
  cases hi
  cases hj

end Reading

end ScriptHost
