import ScriptHost.Proofs.Alignment
import ScriptHost.Proofs.Footprint
import ScriptHost.Proofs.Spec.Marshal

/-! # How reading ends

Reading ends with all arguments taken that it asked for, or with a format error. Three things are
followed on the way, for a machine that reading started from: what lies on its stack as long as it is
not closed; that all else is left alone as long as no finalizer is entered and no global is read; and
that an error of a format whose directives are self-contained is one of format or arguments.
-/

namespace ScriptHost

open Machine
open Act (Tried)

/-- What the directives of a format build depends on the arguments alone. -/
def SelfContained (format : List Directive) : Prop := ∀ d ∈ format, d.isSelfContained = true

namespace Machine

/-! ## Machines that reading has come to -/

variable {start m m' : Machine} {format : List Directive} {own own' : List Nat} {b : Nat}
  {s t : List Value} {A A' : Machine → Prop}

/-- A machine that a run has come to: it looks as is said unless it was closed, and without globals
    and finalizers it has made tables of its own and left the rest alone. -/
structure Midway (start : Machine) (format : List Directive) (own : List Nat) (A : Machine → Prop)
    (m : Machine) : Prop where
  runs : Runs [] start m
  shape : m.closed = start.closed → A m
  beside : .global ∉ format → Silent start m → Beside start own m

namespace Midway

theorem self (hA : A m) : Midway m format [] A m := ⟨.refl m, fun _ => hA, fun _ _ => beside_self m⟩

theorem mono (h : Midway start format own A m) (hA : A m → A' m) : Midway start format own A' m :=
  ⟨h.runs, fun hc => hA (h.shape hc), h.beside⟩

theorem forget (h : Midway start format own A m) (hown : own' ⊆ own) : Midway start format own' A m :=
  ⟨h.runs, h.shape, fun hglobal hsilent => (h.beside hglobal hsilent).mono hown⟩

theorem framed (h : Midway start format own A m) (hstart : start.Framed) : m.Framed :=
  h.runs.framed hstart

/-- One step further. -/
theorem step (h : Midway start format own A m) (hstart : start.Framed) (hrun : Runs [] m m')
    (hshape : m'.closed = m.closed → A m → A' m')
    (hbeside : Silent m m' → A m → Beside start own m → Beside start own' m') :
    Midway start format own' A' m' := by
  refine ⟨h.runs.trans_nil hrun, fun hc => ?_, fun hglobal hsilent => ?_⟩
  · obtain ⟨hc, hc'⟩ := h.runs.closed_between hrun hstart hc
    exact hshape hc' (h.shape hc)
  · obtain ⟨hbefore, hafter⟩ := hsilent.split_runs h.runs hrun
    have hb := h.beside hglobal hbefore
    exact hbeside hafter (h.shape hb.closed) hb

/-- After the machine was closed nothing is said of it. -/
theorem lost (h : Midway start format own A m) (hstart : start.Framed) (hlost : m.closed ≠ start.closed)
    (hrun : Runs [] m m') : Midway start format own' A' m' := by
  refine ⟨h.runs.trans_nil hrun, fun hc => ?_, fun hglobal hsilent => ?_⟩
  · exact absurd (h.runs.closed_between hrun hstart hc).1 hlost
  · exact absurd (h.beside hglobal (hsilent.split_runs h.runs hrun).1).closed hlost

theorem exists_shape {ι : Type} [Nonempty ι] {A : ι → Machine → Prop}
    (h : Midway start format own (fun m => ∃ i, A i m) m) : ∃ i, Midway start format own (A i) m := by
  by_cases hc : m.closed = start.closed
  · obtain ⟨i, hA⟩ := h.shape hc
    exact ⟨i, h.runs, fun _ => hA, h.beside⟩
  · exact ⟨Classical.arbitrary ι, h.runs, fun h => absurd h hc, h.beside⟩

end Midway

/-! ## Steps of reading -/

section

variable {host : Host} {v : Value}

/-- A value is pushed. -/
theorem Midway.push (h : Midway start format own (Laid b s) m) (hstart : start.Framed) :
    Midway start format own (Laid b (s ++ [v])) (m.push v) :=
  h.step hstart (leads_push (h.framed hstart)) (fun _ hl => hl.push) fun _ _ hb => hb.of_eq

theorem Midway.pushInt (h : Midway start format own (Laid b s) m) (hstart : start.Reachable) (i : Int) :
    ∃ v, Key.ofValue? v ≠ none ∧ Midway start format own (Laid b (s ++ [v])) (m.pushInt i) := by
  have hruns := leads_pushInt (h.framed hstart.framed) (i := i)
  cases hfits : Value.fitsInline i with
  | true =>
      rw [pushInt_inline hfits]
      exact ⟨.int i, by simp [Key.ofValue?], h.push hstart.framed⟩
  | false =>
      rw [pushInt_newBoxed hfits] at hruns ⊢
      have hsound := (hstart.runs h.runs).heap_sound
      refine ⟨.boxed (m.heap.newBoxed i).1, by simp [Key.ofValue?], ?_⟩
      refine h.step hstart.framed hruns (fun _ hl => ?_) fun _ _ hb => ?_
      · exact Laid.push (m := { m with heap := (m.heap.newBoxed i).2 }) ⟨hl.base, hl.stack⟩
      · exact (hb.allocate (Heap.allocates_newBoxed hsound i)).1.of_eq

theorem Midway.pushText (h : Midway start format own (Laid b s) m) (hstart : start.Framed) (text : String) :
    ∃ v, Key.ofValue? v ≠ none ∧ Midway start format own (Laid b (s ++ [v])) (m.pushText text) := by
  refine ⟨.string (m.intern (Utf8.encode text)).1, by simp [Key.ofValue?], ?_⟩
  refine h.step hstart (leads_pushText (h.framed hstart)) (fun _ hl => ?_) fun _ _ hb => hb.of_eq
  exact Laid.push (m := (m.intern (Utf8.encode text)).2) ⟨hl.base, hl.stack⟩

/-- A collection makes room for a new object. -/
theorem Midway.collect (h : Midway start format own (Laid b s) m) (hhost : host.Lawful)
    (hstart : start.Reachable) (hs : start.stack.toList <+: s) :
    ∃ m', (Act.collectIfDue : Act Empty Unit) host m = .ok () m' ∧
      Midway start format own (Laid b s) m' := by
  obtain ⟨m', hrun, hruns, htidied⟩ := Act.collectIfDue_silent (ε := Empty) hhost (hstart.runs h.runs)
  refine ⟨m', hrun, h.step hstart.framed hruns (fun hc hl => ?_) fun hsilent hl hb => ?_⟩
  · exact (Act.collectIfDue_spec s fun _ => True).ok hhost (h.framed hstart.framed) hl hrun hc
  · exact hb.tidied (hl.stack ▸ hs) (htidied hsilent) h.runs.log hruns.log

/-- A new table is one of its own. -/
theorem Midway.newTable (h : Midway start format own (Laid b s) m) (hhost : host.Lawful)
    (hstart : start.Reachable) (hs : start.stack.toList <+: s) :
    ∃ slot m', (Act.newTable : Act Empty Unit) host m = .ok () m' ∧
      Midway start format (slot :: own) (Laid b (s ++ [.table slot])) m' := by
  obtain ⟨m₁, hrun, h₁⟩ := h.collect hhost hstart hs
  have hsound := (hstart.runs h₁.runs).heap_sound
  refine ⟨m₁.heap.newTable.1, { m₁ with heap := m₁.heap.newTable.2 }.push (.table m₁.heap.newTable.1),
    Act.bind_ok hrun, h₁.step hstart.framed ?_ (fun _ hl => ?_) fun _ _ hb => ?_⟩
  · exact (leads_heap .newTable).trans leads_push (h₁.framed hstart.framed)
  · exact Laid.push (m := { m₁ with heap := m₁.heap.newTable.2 }) ⟨hl.base, hl.stack⟩
  · exact ((hb.allocate (Heap.allocates_newTable hsound)).2 _ rfl).of_eq

theorem Midway.pushNative (h : Midway start format own (Laid b s) m) (hhost : host.Lawful)
    (hstart : start.Reachable) (hs : start.stack.toList <+: s) (code : NativeCode) :
    ∃ v m', (Act.pushNative code : Act Empty Unit) host m = .ok () m' ∧ Key.ofValue? v ≠ none ∧
      Midway start format own (Laid b (s ++ [v])) m' := by
  obtain ⟨m₁, hrun, h₁⟩ := h.collect hhost hstart hs
  have hsound := (hstart.runs h₁.runs).heap_sound
  obtain ⟨f, -, hpush⟩ := Act.pushNative_ok code hrun
  refine ⟨.function (m₁.heap.newFunction f).1, _, hpush, by simp [Key.ofValue?], h₁.step hstart.framed ?_ (fun _ hl => ?_) fun _ _ hb => ?_⟩
  · exact (leads_heap (.newFunction f)).trans leads_push (h₁.framed hstart.framed)
  · exact Laid.push (m := { m₁ with heap := (m₁.heap.newFunction f).2 }) ⟨hl.base, hl.stack⟩
  · exact (hb.allocate (Heap.allocates_newFunction hsound f)).1.of_eq

end

end Machine

namespace Reading

variable {α β : Type} {host : Host} {args rest : List Argument} {P P' : Machine → Prop}
  {Q Q' : α → List Argument → Machine → Prop} {R : β → List Argument → Machine → Prop}
  {E E' : Machine → Prop} {x : Reading α} {f : α → Reading β} {e : FormatError} {c : Prop}

/-- With some arguments reading takes machines that satisfy `P` to `Q` of its result, the arguments that
    are left and the machine, or to `E` if it fails. -/
def Meets (host : Host) (args : List Argument) (P : Machine → Prop) (x : Reading α)
    (Q : α → List Argument → Machine → Prop) (E : Machine → Prop) : Prop :=
  ∀ m, P m → ∃ r rest m', StateT.run (ExceptT.run x) args host m = .ok (r, rest) m' ∧
    Tried (fun a => Q a rest) E r m'

namespace Meets

theorem pure {a : α} (h : ∀ m, P m → Q a args m) : Meets host args P (pure a) Q E :=
  fun m hp => ⟨.ok a, args, m, rfl, h m hp⟩

theorem throw (h : ∀ m, P m → E m) : Meets host args P (throw e : Reading α) Q E :=
  fun m hp => ⟨.error e, args, m, rfl, h m hp⟩

theorem bind (hx : Meets host args P x Q E) (hf : ∀ a rest, Meets host rest (Q a rest) (f a) R E) :
    Meets host args P (x >>= f) R E := by
  intro m hp
  obtain ⟨r, rest, m₁, hrun, htried⟩ := hx m hp
  change ∃ r rest m', (StateT.run (ExceptT.run x) args >>= fun result => _) host m = _ ∧ _
  rw [Act.run_bind, hrun]
  cases r with
  | ok a => exact hf a rest m₁ htried
  | error e => exact ⟨.error e, rest, m₁, rfl, htried⟩

theorem pre (h : Meets host args P x Q E) (hpre : ∀ m, P' m → P m) : Meets host args P' x Q E :=
  fun m hp => h m (hpre m hp)

/-- Reading that starts from one of the machines. -/
theorem start {m : Machine} (h : Meets host args P x Q E) (hm : P m) : Meets host args (· = m) x Q E :=
  h.pre fun _ heq => heq ▸ hm

theorem post (h : Meets host args P x Q E) (hok : ∀ a rest m, Q a rest m → Q' a rest m)
    (herror : ∀ m, E m → E' m) : Meets host args P x Q' E' := by
  intro m hp
  obtain ⟨r, rest, m', hrun, htried⟩ := h m hp
  refine ⟨r, rest, m', hrun, ?_⟩
  cases r with
  | ok a => exact hok a rest m' htried
  | error e => exact herror m' htried

/-- What holds of the arguments whenever reading succeeds may be added. -/
theorem ensures {T : α → List Argument → Prop} (h : Meets host args P x Q E) (hx : Ensures args x T) :
    Meets host args P x (fun a rest m => Q a rest m ∧ T a rest) E := by
  intro m hp
  obtain ⟨r, rest, m', hrun, htried⟩ := h m hp
  refine ⟨r, rest, m', hrun, ?_⟩
  cases r with
  | ok a => exact ⟨htried, hx hrun⟩
  | error e => exact htried

theorem and_pre (h : c → Meets host args P x Q E) : Meets host args (fun m => P m ∧ c) x Q E :=
  fun m hp => h hp.2 m hp.1

theorem exists_pre {ι : Type} {P : ι → Machine → Prop} (h : ∀ i, Meets host args (P i) x Q E) :
    Meets host args (fun m => ∃ i, P i m) x Q E :=
  fun m hp => hp.elim fun i hp => h i m hp

theorem perform {y : Act Empty α} (h : ∀ m, P m → ∃ a m', y host m = .ok a m' ∧ Q a args m') :
    Meets host args P (perform y) Q E := by
  intro m hp
  obtain ⟨a, m', hrun, hq⟩ := h m hp
  exact ⟨.ok a, args, m', Yields.perform hrun, hq⟩

theorem change {g : Machine → Machine} {Q : Unit → List Argument → Machine → Prop}
    (h : ∀ m, P m → Q () args (g m)) : Meets host args P (change g) Q E :=
  perform fun m hp => ⟨(), g m, rfl, h m hp⟩

theorem orFail {y : Act ScriptError α} (h : ∀ m, P m → Act.Ended (fun a => Q a args) E (y host m)) :
    Meets host args P (orFail e y) Q E := by
  refine bind (Q := fun r rest m => rest = args ∧ Tried (fun a => Q a args) E r m) (perform fun m hp => ?_)
    fun r rest => ?_
  · have hended := h m hp
    rw [Act.run_attempt]
    cases hrun : y host m with
    | ok a m' =>
        rw [hrun] at hended
        exact ⟨.ok a, m', rfl, rfl, hended⟩
    | error e m' =>
        rw [hrun] at hended
        exact ⟨.error e, m', rfl, rfl, hended⟩
  · cases r with
    | ok a => exact pure fun m h => h.1 ▸ h.2
    | error _ => exact throw fun m h => h.2

/-- What follows reading the machine may depend on it. -/
theorem machine_bind {f : Machine → Reading β} (h : ∀ m, P m → Meets host args (· = m) (f m) R E) :
    Meets host args P (machine >>= f) R E :=
  fun m hp => bind (Q := fun a rest m' => rest = args ∧ m' = a ∧ a = m) (perform fun m' hm' => ⟨m', m', rfl, rfl, rfl, hm'⟩)
    (fun a rest m' h' => by
      obtain ⟨rfl, rfl, rfl⟩ := h'
      exact h _ hp _ rfl) m rfl

theorem nextArgument {f : Argument → Reading β} (hnone : args = [] → ∀ m, P m → E m)
    (h : ∀ a rest, args = a :: rest → Meets host rest P (f a) R E) :
    Meets host args P (nextArgument >>= f) R E := by
  cases args with
  | nil => exact fun m hp => ⟨.error .missingArgument, [], m, rfl, hnone rfl m hp⟩
  | cons a rest =>
      refine bind (Q := fun b rest' m => (b = a ∧ rest' = rest) ∧ P m)
        (fun m hp => ⟨.ok a, rest, m, rfl, ⟨rfl, rfl⟩, hp⟩) fun b rest' m hp => ?_
      obtain ⟨⟨rfl, rfl⟩, hp⟩ := hp
      exact h _ _ rfl m hp

theorem condition {f : Bool → Reading β} (hnone : (∀ b rest, args ≠ .bool b :: rest) → ∀ m, P m → E m)
    (h : ∀ b rest, args = .bool b :: rest → Meets host rest P (f b) R E) :
    Meets host args P (condition >>= f) R E := by
  refine bind (Q := fun b rest m => P m ∧ args = .bool b :: rest) ?_ fun b rest => and_pre fun hargs => h b rest hargs
  refine nextArgument (fun hargs => hnone (by simp [hargs])) fun a rest hargs => ?_
  cases a with
  | bool b => exact pure fun m hp => ⟨hp, hargs⟩
  | int | number | text | function | pointer | index => exact throw (hnone (by simp [hargs]))

theorem ite {c : Prop} [Decidable c] {x y : Reading α} (hx : c → Meets host args P x Q E)
    (hy : ¬ c → Meets host args P y Q E) : Meets host args P (if c then x else y) Q E := by
  split
  · rename_i h
    exact hx h
  · rename_i h
    exact hy h

end Meets

/-! ## Scalars -/

variable {start : Machine} {format : List Directive} {own : List Nat} {b : Nat} {s : List Value}
  {mode : Mode} {d : Directive} {A C : Machine → Prop} {B : α → Machine → Prop} {fits : Prop}

/-- A run that closes the machine is of no interest. -/
theorem Meets.of_open {own' : List Nat} (hhost : host.Lawful) (hstart : start.Framed) (hx : x.Lawful)
    (h : Meets host args (fun m => Midway start format own A m ∧ m.closed = start.closed) x
      (fun a _ => Midway start format own' (B a)) (Midway start format own' C)) :
    Meets host args (Midway start format own A) x (fun a _ => Midway start format own' (B a))
      (Midway start format own' C) := by
  intro m hm
  by_cases hc : m.closed = start.closed
  · exact h m ⟨hm, hc⟩
  · cases hrun : StateT.run (ExceptT.run x) args host m with
    | error e _ => exact e.elim
    | ok result m' =>
        obtain ⟨r, rest⟩ := result
        have hruns := (hx args).run_ok hhost (hm.framed hstart) hrun
        refine ⟨r, rest, m', rfl, ?_⟩
        cases r with
        | ok a => exact hm.lost hstart hc hruns
        | error e => exact hm.lost hstart hc hruns

/-- Where globals are read only the shape counts. -/
theorem Meets.of_spec (hhost : host.Lawful) (hstart : start.Framed) (hglobal : .global ∈ format)
    (hx : Spec A x B C) : Meets host args (Midway start format own A) x
      (fun a _ => Midway start format own (B a)) (Midway start format own C) := by
  intro m hm
  cases hrun : StateT.run (ExceptT.run x) args host m with
  | error e _ => exact e.elim
  | ok result m' =>
      obtain ⟨r, rest⟩ := result
      have hruns := (hx.lawful args).run_ok hhost (hm.framed hstart) hrun
      have htried : m'.closed = start.closed → Tried B C r m' := by
        intro hc
        obtain ⟨hc, hc'⟩ := hm.runs.closed_between hruns hstart hc
        exact (hx args).ok hhost (hm.framed hstart) (hm.shape hc) hrun hc'
      refine ⟨r, rest, m', rfl, ?_⟩
      cases r with
      | ok a => exact ⟨hm.runs.trans_nil hruns, htried, fun h => absurd hglobal h⟩
      | error e => exact ⟨hm.runs.trans_nil hruns, htried, fun h => absurd hglobal h⟩

/-- What an element leaves that pushes a value, or that does not. A key that depends on the arguments
    alone is fit to be one. -/
def Shown (format : List Directive) (mode : Mode) (pushes : Bool) (b : Nat) (s : List Value) (m : Machine) :
    Prop :=
  if pushes then ∃ v, (SelfContained format → mode.asKey = true → Key.ofValue? v ≠ none) ∧ Laid b (s ++ [v]) m
  else Laid b s m

/-- What an error leaves: the values below, and arguments that do not fit. -/
def Stopped (format : List Directive) (b : Nat) (s : List Value) (fits : Prop) (m : Machine) : Prop :=
  Over b s m ∧ (SelfContained format → ¬ fits)

theorem stopped_of_laid (h : SelfContained format → ¬ fits) (m : Machine)
    (hm : Midway start format own (Laid b s) m) : Midway start format own (Stopped format b s fits) m :=
  hm.mono fun hl => ⟨hl.over_self, h⟩

/-- Emission shows what it pushes. -/
theorem emit_meets {y : Act Empty Unit} {fits : Prop} (h : ∀ m, Midway start format own (Laid b s) m → ∃ v m',
      y host m = .ok () m' ∧ (SelfContained format → mode.asKey = true → Key.ofValue? v ≠ none) ∧
      Midway start format own (Laid b (s ++ [v])) m') :
    Meets host args (Midway start format own (Laid b s)) (emit mode y)
      (fun _ _ => Midway start format own (Shown format mode (!mode.suppressed) b s))
      (Midway start format own (Stopped format b s fits)) := by
  unfold emit Shown
  cases mode.suppressed with
  | true => exact .pure fun _ hm => hm
  | false =>
      refine .perform fun m hm => ?_
      obtain ⟨v, m', hrun, hkey, hm'⟩ := h m hm
      exact ⟨(), m', hrun, hm'.mono fun hl => ⟨v, hkey, hl⟩⟩

/-- A scalar that no argument is there for, or one of another kind. -/
theorem not_fits_of_head (htakes : d.takesArgument = true)
    (h : ∀ a rest, args = a :: rest → d.accepts a = false) :
    ¬ (Element.scalar d).Fits mode.asKey mode.suppressed args := by
  rw [Element.Fits, supplies_cons htakes]
  rintro ⟨-, ⟨a, rest, hargs, ha, -⟩, -⟩
  rw [h a rest hargs] at ha
  cases ha

theorem not_fits_of_none (htakes : d.takesArgument = true) (hargs : args = []) :
    ¬ (Element.scalar d).Fits mode.asKey mode.suppressed args := not_fits_of_head htakes (by simp [hargs])

theorem not_fits_of_refused {a : Argument} (htakes : d.takesArgument = true) (hargs : args = a :: rest)
    (ha : d.accepts a = false) : ¬ (Element.scalar d).Fits mode.asKey mode.suppressed args := by
  subst hargs
  refine not_fits_of_head htakes ?_
  rintro _ _ ⟨⟩
  exact ha

theorem fits_admissible {a : Argument} (htakes : d.takesArgument = true)
    (h : (Element.scalar d).Fits mode.asKey mode.suppressed (a :: rest)) :
    Spot.Admissible ⟨d, some a, mode.asKey, mode.suppressed⟩ := by
  rw [Element.Fits, if_pos htakes] at h
  exact h.2.2

/-- How a scalar is read. -/
def ScalarMeets (host : Host) (start : Machine) (format : List Directive) (own : List Nat) (b : Nat)
    (s : List Value) (mode : Mode) (d : Directive) (args : List Argument) : Prop :=
  Meets host args (Midway start format own (Laid b s)) (scalar mode d)
    (fun _ _ => Midway start format own (Shown format mode (!mode.suppressed) b s))
    (Midway start format own
      (Stopped format b s ((Element.scalar d).Fits mode.asKey mode.suppressed args)))

/-- Emission of a value that is fit to be a key. -/
theorem push_meets {v : Value} (hstart : start.Framed) (hv : mode.asKey = true → Key.ofValue? v ≠ none) :
    Meets host args (Midway start format own (Laid b s)) (emit mode (modify (·.push v)))
      (fun _ _ => Midway start format own (Shown format mode (!mode.suppressed) b s))
      (Midway start format own (Stopped format b s fits)) :=
  emit_meets fun m hm => ⟨v, m.push v, rfl, fun _ => hv, hm.push hstart⟩

theorem slot_meets {relative : Bool} (hstart : start.Framed) (hformat : ¬ SelfContained format) :
    Meets host args (Midway start format own (Laid b s)) (slot mode relative)
      (fun _ _ => Midway start format own (Shown format mode (!mode.suppressed) b s))
      (Midway start format own (Stopped format b s fits)) := by
  have hstop : ∀ m, Midway start format own (Laid b s) m →
      Midway start format own (Stopped format b s fits) m :=
    stopped_of_laid fun h => absurd h hformat
  have hthrow : ∀ {γ : Type} {rest : List Argument} {e : FormatError} {f : γ → Reading Unit},
      Meets host rest (Midway start format own (Laid b s)) (throw e >>= f)
        (fun _ _ => Midway start format own (Shown format mode (!mode.suppressed) b s))
        (Midway start format own (Stopped format b s fits)) :=
    fun {γ rest e f} => Meets.bind (Q := fun _ _ _ => False) (.throw hstop) fun _ _ _ h => h.elim
  refine .nextArgument (fun _ => hstop) fun a rest _ => ?_
  refine .bind (α := StackIndex) (Q := fun _ _ => Midway start format own (Laid b s)) ?_
    fun i rest => .machine_bind fun m hm => .start ?_ hm
  · cases argumentIndex a with
    | ok i => exact .pure fun _ => id
    | error e => exact .throw hstop
  · cases resolveIndex m (if relative then m.top + 1 else mode.start) i with
    | none => exact .throw hstop
    | some i =>
        have hemit : Meets host rest (Midway start format own (Laid b s)) (emit mode (modify (·.pushAt i)))
            (fun _ _ => Midway start format own (Shown format mode (!mode.suppressed) b s))
            (Midway start format own (Stopped format b s fits)) :=
          emit_meets fun m hm => ⟨m.value i, m.pushAt i, rfl, fun h => absurd h hformat, hm.push hstart⟩
        refine .ite (fun _ => ?_) fun _ => hemit
        cases m.value i with
        | nil => exact hthrow
        | float d => exact .ite (fun _ => hthrow) fun _ => hemit
        | bool | int | string | light | object | foreign => exact hemit

theorem light_meets (nonNull : Bool) (hstart : start.Framed) :
    Meets host args (Midway start format own (Laid b s)) (light mode nonNull)
      (fun _ _ => Midway start format own (Shown format mode (!mode.suppressed) b s))
      (Midway start format own (Stopped format b s
        ((Element.scalar (if nonNull then .lightNonNull else .light)).Fits mode.asKey mode.suppressed args))) := by
  have htakes : (if nonNull then Directive.lightNonNull else .light).takesArgument = true := by
    cases nonNull <;> rfl
  have hmismatch : (∀ p rest, args ≠ .pointer p :: rest) → ∀ m, Midway start format own (Laid b s) m →
      Midway start format own (Stopped format b s
        ((Element.scalar (if nonNull then .lightNonNull else .light)).Fits mode.asKey mode.suppressed args)) m := by
    intro hargs
    refine stopped_of_laid fun _ => not_fits_of_head htakes fun a rest h => ?_
    cases a with
    | pointer p => exact absurd h (hargs p rest)
    | int | number | bool | text | function | index => cases nonNull <;> rfl
  refine .nextArgument (fun h => hmismatch (by simp [h])) fun a rest hargs => ?_
  cases a with
  | pointer p =>
      subst hargs
      have hstop : ¬ Spot.Admissible ⟨if nonNull then .lightNonNull else .light, some (.pointer p),
            mode.asKey, mode.suppressed⟩ →
          ∀ m, Midway start format own (Laid b s) m → Midway start format own (Stopped format b s
            ((Element.scalar (if nonNull then .lightNonNull else .light)).Fits mode.asKey mode.suppressed
              (.pointer p :: rest))) m :=
        fun h => stopped_of_laid fun _ hfits => h (fits_admissible htakes hfits)
      change Meets host rest _ (if mode.suppressed then pure ()
        else if p = 0 then
          if nonNull then throw .nullUserdata
          else if mode.asKey then throw .nullKey
          else change (·.push .nil)
        else orFail .argumentMismatch (Op.pushLight p)) _ _
      cases hsuppressed : mode.suppressed with
      | true => exact .pure fun _ hm => hm
      | false =>
          rw [hsuppressed] at hstop
          refine .ite (fun h => Bool.noConfusion h) fun _ => .ite (fun hnull => ?_) fun hnull => ?_
          · refine .ite (fun hnonNull => .throw (hstop fun h => ?_)) fun hnonNull =>
              .ite (fun hkey => .throw (hstop fun h => ?_)) fun hkey => .change fun m hm => ?_
            · exact h.nonNull rfl (by simp [hnonNull]) (by rw [hnull])
            · exact h.nonNullKey rfl hkey (by simp [hnonNull]) (by rw [hnull])
            · exact (hm.push hstart).mono fun hl => ⟨.nil, fun _ h => absurd h hkey, hl⟩
          · refine .orFail fun m hm => ?_
            by_cases hp : p < Value.lightBound
            · rw [Act.run_lift, Op.pushLight_ok hp]
              exact (hm.push hstart).mono fun hl => ⟨.light p, fun _ _ => by simp [Key.ofValue?], hl⟩
            · rw [Act.run_lift, Op.pushLight_refused hp]
              exact hstop (fun h => hp (h.inRange rfl p rfl)) m hm
  | int | number | bool | text | function | index => exact .throw (hmismatch (by simp [hargs]))

theorem ofValue?_ofDouble {x : Double} (hx : x.isNaN = false) : Key.ofValue? (.ofDouble x) ≠ none := by
  rw [Value.ofDouble, Key.ofValue?, if_neg (by simp [x.isNaN_canonical, hx])]
  split <;> simp

theorem number_meets (hstart : start.Framed) : ScalarMeets host start format own b s mode .number args := by
  refine .nextArgument (fun h => stopped_of_laid fun _ => not_fits_of_none rfl h) fun a rest hargs => ?_
  have hpush : ∀ x : Double, (mode.asKey = true → x.isNaN = true →
        ¬ (Element.scalar .number).Fits mode.asKey mode.suppressed args) →
      Meets host rest (Midway start format own (Laid b s)) (do
        if mode.asKey && x.isNaN then throw .nanKey
        emit mode (modify (·.push (.ofDouble x))) : Reading Unit)
        (fun _ _ => Midway start format own (Shown format mode (!mode.suppressed) b s))
        (Midway start format own
          (Stopped format b s ((Element.scalar .number).Fits mode.asKey mode.suppressed args))) := by
    intro x hx
    refine .ite (fun h => ?_) fun h => push_meets hstart fun hkey => ofValue?_ofDouble ?_
    · obtain ⟨hkey, hnan⟩ := (Bool.and_eq_true _ _).mp h
      exact .bind (Q := fun _ _ _ => False) (.throw (stopped_of_laid fun _ => hx hkey hnan))
        fun _ _ _ h => h.elim
    · simpa [hkey] using h
  cases a with
  | number x =>
      refine .bind (Q := fun x' rest' m => (x' = x ∧ rest' = rest) ∧ Midway start format own (Laid b s) m)
        (.pure fun m hm => ⟨⟨rfl, rfl⟩, hm⟩) fun x' rest' m hm => ?_
      obtain ⟨⟨rfl, rfl⟩, hm⟩ := hm
      subst hargs
      refine hpush _ (fun hkey hnan hfits => ?_) m hm
      have hadmissible := (fits_admissible rfl hfits).number hkey rfl x' rfl
      rw [hnan] at hadmissible
      cases hadmissible
  | int i =>
      refine .bind (Q := fun x' rest' m => (x' = Double.ofInt i ∧ rest' = rest) ∧
        Midway start format own (Laid b s) m) (.pure fun m hm => ⟨⟨rfl, rfl⟩, hm⟩) fun x' rest' m hm => ?_
      obtain ⟨⟨rfl, rfl⟩, hm⟩ := hm
      refine hpush _ (fun _ hnan => ?_) m hm
      rw [Double.ofInt, Double.isNaN_ofRatio] at hnan
      cases hnan
  | bool | text | function | pointer | index =>
      exact .bind (Q := fun _ _ _ => False) (.throw (stopped_of_laid fun _ => not_fits_of_refused rfl hargs rfl))
        fun _ _ _ h => h.elim

theorem scalar_meets (hhost : host.Lawful) (hstart : start.Reachable) (hs : start.stack.toList <+: s)
    (mode : Mode) (hd : d.isScalar = true) (hmem : d ∈ format) (args : List Argument) :
    ScalarMeets host start format own b s mode d args := by
  have hframed := hstart.framed
  cases d with
  | slotFromStart => exact slot_meets hframed fun h => by cases h _ hmem
  | slotFromTop => exact slot_meets hframed fun h => by cases h _ hmem
  | boolean =>
      refine .condition (fun h => stopped_of_laid fun _ => not_fits_of_head rfl fun a rest hargs => ?_) fun b rest _ =>
        push_meets hframed fun _ => by simp [Key.ofValue?]
      cases a with
      | bool b => exact absurd hargs (h b rest)
      | int | number | text | function | pointer | index => rfl
  | constTrue | constFalse => exact push_meets hframed fun _ => by simp [Key.ofValue?]
  | function =>
      refine .nextArgument (fun h => stopped_of_laid fun _ => not_fits_of_none rfl h) fun a rest hargs => ?_
      cases a with
      | function code =>
          refine emit_meets fun m hm => ?_
          obtain ⟨v, m', hrun, hv, hm'⟩ := hm.pushNative hhost hstart hs code
          exact ⟨v, m', hrun, fun _ _ => hv, hm'⟩
      | int | number | bool | text | pointer | index => exact .throw (stopped_of_laid fun _ => not_fits_of_refused rfl hargs rfl)
  | integer =>
      refine .nextArgument (fun h => stopped_of_laid fun _ => not_fits_of_none rfl h) fun a rest hargs => ?_
      cases a with
      | int i =>
          refine emit_meets fun m hm => ?_
          obtain ⟨v, hv, hm'⟩ := hm.pushInt hstart i
          exact ⟨v, _, rfl, fun _ _ => hv, hm'⟩
      | number | bool | text | function | pointer | index => exact .throw (stopped_of_laid fun _ => not_fits_of_refused rfl hargs rfl)
  | number => exact number_meets hframed
  | text =>
      refine .nextArgument (fun h => stopped_of_laid fun _ => not_fits_of_none rfl h) fun a rest hargs => ?_
      cases a with
      | text t =>
          refine emit_meets fun m hm => ?_
          obtain ⟨v, hv, hm'⟩ := hm.pushText hframed t
          exact ⟨v, _, rfl, fun _ _ => hv, hm'⟩
      | int | number | bool | function | pointer | index => exact .throw (stopped_of_laid fun _ => not_fits_of_refused rfl hargs rfl)
  | light => exact light_meets false hframed
  | lightNonNull => exact light_meets true hframed
  | nil =>
      refine .ite (fun hkey => ?_) fun hkey => push_meets hframed fun h => absurd h hkey
      refine .bind (Q := fun _ _ _ => False) (.throw (stopped_of_laid fun _ hfits => ?_)) fun _ _ _ h => h.elim
      rw [Element.Fits] at hfits
      exact hfits.2.2.nil hkey rfl
  | global =>
      have hother : ¬ SelfContained format := fun h => by cases h _ hmem
      have hspec : Spec (Laid b s) (global mode) (fun _ => Shown format mode (!mode.suppressed) b s)
          (Stopped format b s ((Element.scalar .global).Fits mode.asKey mode.suppressed args)) := by
        refine (global_spec.post fun _ m h => ?_).weaken fun _ hover => ⟨hover, fun h => absurd h hother⟩
        rcases h with ⟨hsuppressed, hl⟩ | ⟨hopen, v, hl⟩
        · rw [Shown, hsuppressed]
          exact hl
        · rw [Shown, hopen]
          exact ⟨v, fun h => absurd h hother, hl⟩
      exact .of_spec hhost hframed hmem hspec
  | openTable | closeTable | condition | key | unknown => cases hd

end Reading

end ScriptHost
