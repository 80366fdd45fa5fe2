import ScriptHost.Proofs.Integrity

/-! # Careful operations

A specification of what an operation makes of intact machines, when it succeeds and when it fails. An
error on its way up lies outside the machine, where no collection sees it; so a careful operation raises
a value only if it is there, or if a message handler saw it and what the handler made of it will take its
place. When a handler closes the machine, its protected call goes with all others, and nothing stands of
the error that it saw: specifications say nothing of machines to which that has happened.

An operation also runs alike for two hosts whose functions do the same on intact machines, so it enters
functions on such machines only.
-/

namespace ScriptHost

/-- What may raise a value when it fails. -/
class Raises (ε : Type) where
  /-- The value that an error raises, unless it is only a text. -/
  raised? : ε → Option Value

open Raises (raised?)

instance : Raises ScriptError where
  raised?
    | .value v => some v
    | .runtime _ | .stackOverflow | .errorInHandler => none

theorem ScriptError.eq_value {e : ScriptError} {v : Value} (h : raised? e = some v) : e = .value v := by
  cases e with
  | value => exact congrArg value (Option.some.inj h)
  | runtime | stackOverflow | errorInHandler => cases h

/-- In a log some message handler ended when its protected call was gone, as the machine had been closed
    meanwhile. -/
def Event.Orphaned (log : List Event) : Prop := ∃ raised answer, .handled 0 raised answer ∈ log

namespace Machine

/-- An intact machine with a property, if no message handler lost its protected call. -/
def Sure (P : Machine → Prop) (m : Machine) : Prop := ¬ Event.Orphaned m.events → m.Intact ∧ P m

/-- What a message handler made of a raised value stands in the innermost protected call. -/
def Covered (raised : Value) (m : Machine) : Prop :=
  ∃ g d, m.guards.head? = some g ∧ g.decoration = some d ∧ d.raised = raised

/-- The value of an error is there, or what a handler made of it stands. -/
def Carried {ε : Type} [Raises ε] (e : ε) (m : Machine) : Prop :=
  ∀ v, raised? e = some v → m.heap.Present v ∨ m.Covered v

variable {P Q : Machine → Prop} {m m' : Machine} {ε : Type} [Raises ε] {e : ε}

/-- The log of a machine only grows. -/
theorem Sure.step (hm : m.Sure P) (hlog : m.events <:+ m'.events)
    (h : m.Intact → P m → ¬ Event.Orphaned m'.events → m'.Intact ∧ Q m') : m'.Sure Q := by
  intro hlater
  obtain ⟨hintact, hp⟩ := hm fun ⟨raised, answer, he⟩ => hlater ⟨raised, answer, hlog.subset he⟩
  exact h hintact hp hlater

theorem Sure.imp (hm : m.Sure P) (h : m.Intact → P m → Q m) : m.Sure Q :=
  hm.step (List.suffix_refl _) fun hintact hp _ => ⟨hintact, h hintact hp⟩

theorem carried_of_text (he : raised? e = none) : Carried e m := fun v hv => by
  rw [he] at hv
  cases hv

theorem carried_of_present (he : ∀ v, raised? e = some v → m.heap.Present v) : Carried e m :=
  fun v hv => .inl (he v hv)

end Machine

open Machine (Sure Carried)

variable {ε ε' α β : Type}

/-- What an operation makes of sure machines that satisfy `P`: sure machines that satisfy `Q` with its
    result, or `E` with its error. -/
def Op.Careful (P : Machine → Prop) (x : Op ε α) (Q : α → Machine → Prop) (E : ε → Machine → Prop) :
    Prop :=
  ∀ m, Sure P m →
    match x m with
    | .ok a m' => Sure (Q a) m'
    | .error e m' => Sure (E e) m'

/-- An operation that is careful as it stands: it asks for nothing but a sure machine, and its errors are
    carried. -/
def Op.Clean [Raises ε] (x : Op ε α) : Prop :=
  x.Careful (fun _ => True) (fun _ _ => True) Carried

/-- The functions of a host are careful, and those of another host do the same on sure machines. -/
structure Host.Careful (host host' : Host) : Prop where
  same : ∀ b m, Sure (fun _ => True) m → host'.enter b m = host.enter b m
  clean : ∀ b, (host.enter b).Clean

/-- The same of an operation that may call functions. -/
def Act.Careful (P : Machine → Prop) (x : Act ε α) (Q : α → Machine → Prop) (E : ε → Machine → Prop) :
    Prop :=
  ∀ host host' : Host, host.Careful host' →
    (∀ m, Sure P m → x host' m = x host m) ∧ (x host).Careful P Q E

def Act.Clean [Raises ε] (x : Act ε α) : Prop :=
  x.Careful (fun _ => True) (fun _ _ => True) Carried

namespace Op.Careful

variable {P P' : Machine → Prop} {x : Op ε α} {f : α → Op ε β} {Q Q' : α → Machine → Prop}
  {R : β → Machine → Prop} {E E' : ε → Machine → Prop}

theorem ok {m m' : Machine} {a : α} (h : Op.Careful P x Q E) (hm : Sure P m) (hrun : x m = .ok a m') :
    Sure (Q a) m' := by
  have hx := h m hm
  rwa [hrun] at hx

theorem error {m m' : Machine} {e : ε} (h : Op.Careful P x Q E) (hm : Sure P m)
    (hrun : x m = .error e m') : Sure (E e) m' := by
  have hx := h m hm
  rwa [hrun] at hx

theorem pre (h : Op.Careful P' x Q E) (hp : ∀ m, m.Intact → P m → P' m) : Op.Careful P x Q E :=
  fun m hm => h m (hm.imp (hp m))

theorem post (h : Op.Careful P x Q' E') (hq : ∀ a m, m.Intact → Q' a m → Q a m)
    (he : ∀ e m, m.Intact → E' e m → E e m) : Op.Careful P x Q E := by
  intro m hm
  cases hrun : x m with
  | ok a m' => exact (h.ok hm hrun).imp (hq a m')
  | error e m' => exact (h.error hm hrun).imp (he e m')

theorem pure (a : α) (h : ∀ m, m.Intact → P m → Q a m) : Op.Careful P (pure a) Q E :=
  fun m hm => hm.imp (h m)

theorem throw (e : ε) (h : ∀ m, m.Intact → P m → E e m) : Op.Careful P (throw e) Q E :=
  fun m hm => hm.imp (h m)

theorem fail {Q : α → Machine → Prop} (f : Fault) : Op.Careful P (fail f) Q Carried :=
  fun _ hm => hm.imp fun _ _ => Machine.carried_of_text rfl

theorem modify {g : Machine → Machine} {Q : PUnit → Machine → Prop}
    (hlog : ∀ m, (g m).events = m.events)
    (h : ∀ m, m.Intact → P m → (g m).Intact ∧ Q ⟨⟩ (g m)) : Op.Careful P (modify g) Q E :=
  fun m hm => hm.step (hlog m ▸ List.suffix_refl _) fun hintact hp _ => h m hintact hp

theorem modifyGet {g : Machine → α × Machine} (hlog : ∀ m, (g m).2.events = m.events)
    (h : ∀ m, m.Intact → P m → (g m).2.Intact ∧ Q (g m).1 (g m).2) : Op.Careful P (modifyGet g) Q E :=
  fun m hm => hm.step (hlog m ▸ List.suffix_refl _) fun hintact hp _ => h m hintact hp

theorem bind (hx : Op.Careful P x Q E) (hf : ∀ a, Op.Careful (Q a) (f a) R E) :
    Op.Careful P (x >>= f) R E := by
  intro m hm
  rw [run_bind]
  cases hrun : x m with
  | ok a m' => exact hf a m' (hx.ok hm hrun)
  | error e m' => exact hx.error hm hrun

/-- What follows a look at the machine starts from just this machine. -/
theorem get_bind {f : Machine → Op ε β} (hf : ∀ m, Op.Careful (fun m' => m' = m ∧ P m) (f m) R E) :
    Op.Careful P (get >>= f) R E :=
  fun m hm => hf m m (hm.imp fun _ hp => ⟨rfl, hp⟩)

end Op.Careful

namespace Act.Careful

variable {P P' : Machine → Prop} {x : Act ε α} {f : α → Act ε β} {Q Q' : α → Machine → Prop}
  {R : β → Machine → Prop} {E E' : ε → Machine → Prop}

theorem pre (h : Act.Careful P' x Q E) (hp : ∀ m, m.Intact → P m → P' m) : Act.Careful P x Q E :=
  fun host host' hhost =>
    ⟨fun m hm => (h host host' hhost).1 m (hm.imp (hp m)), (h host host' hhost).2.pre hp⟩

theorem post (h : Act.Careful P x Q' E') (hq : ∀ a m, m.Intact → Q' a m → Q a m)
    (he : ∀ e m, m.Intact → E' e m → E e m) : Act.Careful P x Q E :=
  fun host host' hhost => ⟨(h host host' hhost).1, (h host host' hhost).2.post hq he⟩

/-- An operation that calls no function. -/
theorem lift {x : Op ε α} (h : x.Careful P Q E) : Act.Careful P (liftM x) Q E :=
  fun _ _ _ => ⟨fun _ _ => rfl, h⟩

theorem pure (a : α) (h : ∀ m, m.Intact → P m → Q a m) : Act.Careful P (pure a) Q E :=
  fun _ _ _ => ⟨fun _ _ => rfl, .pure a h⟩

theorem throw (e : ε) (h : ∀ m, m.Intact → P m → E e m) : Act.Careful P (throw e) Q E :=
  fun _ _ _ => ⟨fun _ _ => rfl, .throw e h⟩

/-- What follows a change knows how its result came about. -/
theorem modifyGet_bind {g : Machine → α × Machine} (hlog : ∀ m, (g m).2.events = m.events)
    (h : ∀ m, m.Intact → P m → (g m).2.Intact ∧ Q (g m).1 (g m).2)
    (hf : ∀ m, Act.Careful (Q (g m).1) (f (g m).1) R E) : Act.Careful P (modifyGet g >>= f) R E := by
  intro host host' hhost
  have hg : ∀ m, Sure P m → Sure (Q (g m).1) (g m).2 := fun m hm =>
    hm.step (hlog m ▸ List.suffix_refl _) fun hintact hp _ => h m hintact hp
  exact ⟨fun m hm => (hf m host host' hhost).1 _ (hg m hm),
    fun m hm => (hf m host host' hhost).2 _ (hg m hm)⟩

/-- A change that is recorded. -/
theorem modify_log {g : Machine → Machine} {Q : PUnit → Machine → Prop}
    (hlog : ∀ m, m.events <:+ (g m).events)
    (h : ∀ m, m.Intact → P m → ¬ Event.Orphaned (g m).events → (g m).Intact ∧ Q ⟨⟩ (g m)) :
    Act.Careful P (modify g) Q E :=
  fun _ _ _ => ⟨fun _ _ => rfl, fun m hm => hm.step (hlog m) (h m)⟩

theorem modifyGet_log {g : Machine → α × Machine} (hlog : ∀ m, m.events <:+ (g m).2.events)
    (h : ∀ m, m.Intact → P m → (g m).2.Intact ∧ Q (g m).1 (g m).2) : Act.Careful P (modifyGet g) Q E :=
  fun _ _ _ => ⟨fun _ _ => rfl, fun m hm => hm.step (hlog m) fun hintact hp _ => h m hintact hp⟩

theorem modify {g : Machine → Machine} {Q : PUnit → Machine → Prop}
    (hlog : ∀ m, (g m).events = m.events)
    (h : ∀ m, m.Intact → P m → (g m).Intact ∧ Q ⟨⟩ (g m)) : Act.Careful P (modify g) Q E :=
  fun _ _ _ => ⟨fun _ _ => rfl, .modify hlog h⟩

theorem modifyGet {g : Machine → α × Machine} (hlog : ∀ m, (g m).2.events = m.events)
    (h : ∀ m, m.Intact → P m → (g m).2.Intact ∧ Q (g m).1 (g m).2) : Act.Careful P (modifyGet g) Q E :=
  fun _ _ _ => ⟨fun _ _ => rfl, .modifyGet hlog h⟩

theorem bind (hx : Act.Careful P x Q E) (hf : ∀ a, Act.Careful (Q a) (f a) R E) :
    Act.Careful P (x >>= f) R E := by
  intro host host' hhost
  obtain ⟨hsame, hcareful⟩ := hx host host' hhost
  refine ⟨fun m hm => ?_, hcareful.bind fun a => (hf a host host' hhost).2⟩
  rw [run_bind, run_bind, hsame m hm]
  cases hrun : x host m with
  | ok a m' => exact (hf a host host' hhost).1 m' (hcareful.ok hm hrun)
  | error e m' => rfl

theorem get_bind {f : Machine → Act ε β}
    (hf : ∀ m, Act.Careful (fun m' => m' = m ∧ P m) (f m) R E) : Act.Careful P (get >>= f) R E :=
  fun host host' hhost => ⟨fun m hm => (hf m host host' hhost).1 m (hm.imp fun _ hp => ⟨rfl, hp⟩),
    fun m hm => (hf m host host' hhost).2 m (hm.imp fun _ hp => ⟨rfl, hp⟩)⟩

/-- What an attempt came to may fail or succeed. -/
theorem attempt {R : Except ε α → Machine → Prop} {E' : ε' → Machine → Prop}
    (h : Act.Careful P x (fun a => R (.ok a)) fun e => R (.error e)) :
    Act.Careful P (attempt x : Act ε' (Except ε α)) R E' := by
  intro host host' hhost
  obtain ⟨hsame, hcareful⟩ := h host host' hhost
  refine ⟨fun m hm => by rw [run_attempt, run_attempt, hsame m hm], fun m hm => ?_⟩
  rw [run_attempt]
  cases hrun : x host m with
  | ok a m' => exact hcareful.ok hm hrun
  | error e m' => exact hcareful.error hm hrun

theorem mapError {g : ε → ε'} {E : ε' → Machine → Prop} (h : Act.Careful P x Q fun e => E (g e)) :
    Act.Careful P (mapError g x) Q E := by
  intro host host' hhost
  obtain ⟨hsame, hcareful⟩ := h host host' hhost
  refine ⟨fun m hm => by rw [run_mapError, run_mapError, hsame m hm], fun m hm => ?_⟩
  rw [run_mapError]
  cases hrun : x host m with
  | ok a m' => exact hcareful.ok hm hrun
  | error e m' => exact hcareful.error hm hrun

/-- A function of the host is entered on a sure machine. -/
theorem enter_bind {b : Behaviour} {k : Except ScriptError Nat → Act ε β}
    (hok : ∀ count, Act.Careful (fun _ => True) (k (.ok count)) R E)
    (herror : ∀ e, Act.Careful (Carried e) (k (.error e)) R E) :
    Act.Careful (fun _ => True) (do
      let host ← read
      k (← Act.attempt (liftM (host.enter b)))) R E := by
  intro host host' hhost
  have hb := hhost.clean b
  refine ⟨fun m hm => ?_, fun m hm => ?_⟩
  · simp only [run_bind, run_read, run_attempt, run_lift, hhost.same b m hm]
    cases hrun : host.enter b m with
    | ok count m' => exact (hok count host host' hhost).1 m' (hb.ok hm hrun)
    | error e m' => exact (herror e host host' hhost).1 m' (hb.error hm hrun)
  · simp only [run_bind, run_read, run_attempt, run_lift]
    cases hrun : host.enter b m with
    | ok count m' => exact (hok count host host' hhost).2 m' (hb.ok hm hrun)
    | error e m' => exact (herror e host host' hhost).2 m' (hb.error hm hrun)

theorem ite {c : Prop} [Decidable c] {y : Act ε α} (hx : Act.Careful P x Q E)
    (hy : Act.Careful P y Q E) : Act.Careful P (if c then x else y) Q E := by
  split
  · exact hx
  · exact hy

end Act.Careful

end ScriptHost
