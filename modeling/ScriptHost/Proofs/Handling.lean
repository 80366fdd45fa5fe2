import ScriptHost.Proofs.Discipline
import ScriptHost.Proofs.Finalizers
import ScriptHost.Proofs.Utf8

/-! # Message handlers

The handler of a protected call sees the errors that are raised in this call. Errors that an inner
protected call or the turn of a finalizer stops are kept from it. What it made of an error counts for
the protected call as long as it stands, and as long as it stands the collector leaves the error
alone.
-/

namespace ScriptHost

namespace Event

/-- Every cycle of a log reached the object of a value. -/
def Reaching (v : Value) (log : List Event) : Prop :=
  ∀ reached, .cycle reached ∈ log → ∀ r, v.ref? = some r → reached r

/-- The message handlers of protected calls up to a nesting level start to run only if the machine
    was closed before. -/
def Spares (level : Nat) : List Event → Prop
  | [] => True
  | .handling l _ _ :: earlier => (level < l ∨ .closing ∈ earlier) ∧ Spares level earlier
  | _ :: earlier => Spares level earlier

/-- In a log the message handler of the protected call at a nesting level was called with a raised
    value, and gave an answer. Between the two lies what happened while it ran. -/
def Served (level : Nat) (handler raised : Value) (answer : Option Value)
    (during later log : List Event) : Prop :=
  Spares level during ∧ ∃ earlier, log =
    later ++ .handled level raised answer :: (during ++ .handling level handler raised :: earlier)

variable {v : Value} {level : Nat} {log earlier later : List Event}

theorem reaching_append : Reaching v (later ++ earlier) ↔ Reaching v later ∧ Reaching v earlier := by
  simp only [Reaching, List.mem_append]
  constructor
  · intro h
    exact ⟨fun reached hin => h reached (.inl hin), fun reached hin => h reached (.inr hin)⟩
  · rintro ⟨hlater, hearlier⟩ reached (hin | hin)
    · exact hlater reached hin
    · exact hearlier reached hin

theorem Spares.append (hlater : Spares level later) (hearlier : Spares level earlier) :
    Spares level (later ++ earlier) := by
  induction later with
  | nil => exact hearlier
  | cons e later ih =>
      cases e with
      | handling =>
          obtain ⟨hfirst, hrest⟩ := hlater
          exact ⟨hfirst.imp_right fun hin => List.mem_append_left _ hin, ih hrest⟩
      | cycle | closing | queued | turn | finalizing | constructed | handled => exact ih hlater

/-- After the machine was closed everything is spared. -/
theorem Spares.closed (hclosing : .closing ∈ earlier) (hearlier : Spares level earlier) :
    Spares level (later ++ earlier) := by
  induction later with
  | nil => exact hearlier
  | cons e later ih =>
      cases e with
      | handling => exact ⟨.inr (List.mem_append_right _ hclosing), ih⟩
      | cycle | closing | queued | turn | finalizing | constructed | handled => exact ih

/-- An event that is neither a cycle nor the start of a message handler. -/
def IsPlain : Event → Prop
  | .cycle _ | .handling .. => False
  | _ => True

theorem spares_of_plain (h : ∀ e ∈ log, e.IsPlain) : Spares level log := by
  induction log with
  | nil => trivial
  | cons e log ih =>
      have hrest := ih fun e he => h e (List.mem_cons_of_mem _ he)
      cases e with
      | handling => cases h _ List.mem_cons_self
      | cycle | closing | queued | turn | finalizing | constructed | handled => exact hrest

theorem reaching_of_plain (h : ∀ e ∈ log, e.IsPlain) : Reaching v log :=
  fun _ hin => (h _ hin).elim

end Event

namespace Machine

open Event (Reaching Spares Served)

variable {m m' m'' : Machine} {q : List Nat} {handler raised v : Value} {g g' : Guard}
  {rest : List Guard} {d : Decoration} {level slot : Nat}

/-! ## What steps record -/

theorem Change.plain (h : Change m m') :
    ∃ new, m'.events = new ++ m.events ∧ ∀ e ∈ new, e.IsPlain := by
  obtain ⟨new, hevents, hnew⟩ := h.log
  refine ⟨new, hevents, fun e he => ?_⟩
  obtain ⟨serial, rfl⟩ := hnew e he
  trivial

theorem turned_plain (m : Machine) (slot : Nat) :
    ∃ new, (m.turned slot).events = new ++ m.events ∧ ∀ e ∈ new, e.IsPlain := by
  rcases turned_events m slot with h | ⟨u, -, h⟩
  · exact ⟨[.turn slot], h, by simp [Event.IsPlain]⟩
  · exact ⟨[.finalizing slot u.serial, .turn slot], h, by simp [Event.IsPlain]⟩

theorem queued_plain (h : Heap Native) (slots : List Nat) :
    ∀ e ∈ (slots.filterMap (queuedEvent? h)).reverse, e.IsPlain := by
  intro e he
  obtain ⟨s, n, rfl⟩ := queuedEvent?_serial? he
  trivial

theorem cycle_log (m : Machine) : ∃ queued,
    m.cycle.2.2.events = (queued ++ [.cycle m.Reached]) ++ m.events ∧ ∀ e ∈ queued, e.IsPlain :=
  ⟨_, by rw [cycle_events, List.append_assoc]; rfl, queued_plain _ _⟩

theorem shut_log (m : Machine) : ∃ queued,
    m.shut.2.events = (queued ++ [.closing]) ++ m.events ∧ ∀ e ∈ queued, e.IsPlain :=
  ⟨_, by rw [shut_events, List.append_assoc]; rfl, queued_plain _ _⟩

/-! ## Cycles -/

/-- No cycle between two machines missed the object of a value. -/
def Retains (v : Value) (m m' : Machine) : Prop :=
  ∃ new, m'.events = new ++ m.events ∧ Reaching v new

namespace Retains

variable {new : List Event}

theorem refl (v : Value) (m : Machine) : Retains v m m := ⟨[], rfl, by simp [Reaching]⟩

theorem trans (h : Retains v m m') (h' : Retains v m' m'') : Retains v m m'' := by
  obtain ⟨first, hfirst, hreach⟩ := h
  obtain ⟨last, hlast, hreach'⟩ := h'
  exact ⟨last ++ first, by rw [hlast, hfirst, List.append_assoc],
    Event.reaching_append.mpr ⟨hreach', hreach⟩⟩

theorem of_plain (hevents : m'.events = new ++ m.events) (hplain : ∀ e ∈ new, e.IsPlain) :
    Retains v m m' :=
  ⟨new, hevents, Event.reaching_of_plain hplain⟩

theorem reaching (h : Retains v m m') (hevents : m'.events = new ++ m.events) : Reaching v new := by
  obtain ⟨new', hevents', hreach⟩ := h
  exact List.append_cancel_right (hevents.symm.trans hevents') ▸ hreach

theorem split (h : Retains v m m'') (hfirst : ∃ first, m'.events = first ++ m.events)
    (hlast : ∃ last, m''.events = last ++ m'.events) : Retains v m m' ∧ Retains v m' m'' := by
  obtain ⟨first, hfirst⟩ := hfirst
  obtain ⟨last, hlast⟩ := hlast
  have hreach := h.reaching (by rw [hlast, hfirst, List.append_assoc])
  rw [Event.reaching_append] at hreach
  exact ⟨⟨first, hfirst, hreach.2⟩, ⟨last, hlast, hreach.1⟩⟩

theorem cycle_iff : Retains v m m.cycle.2.2 ↔ ∀ r, v.ref? = some r → m.Reached r := by
  obtain ⟨queued, hevents, hplain⟩ := m.cycle_log
  constructor
  · exact fun h => h.reaching hevents m.Reached (by simp)
  · intro h
    refine ⟨_, hevents, Event.reaching_append.mpr ⟨Event.reaching_of_plain hplain, ?_⟩⟩
    intro reached hin
    obtain rfl : m.Reached = reached := by simpa [eq_comm] using hin
    exact h

end Retains

/-! ## The innermost protected call -/

/-- The handler of the innermost protected call, and whether it is running. -/
def service (m : Machine) : Option (Option Value × Bool) :=
  m.guards.head?.map fun g => (g.handler, g.running)

theorem heeds_iff : m.Heeds handler ↔ m.service = some (some handler, false) := by
  unfold Heeds service
  cases m.guards <;> simp

theorem service_forgetDecoration : m.forgetDecoration.service = m.service := by
  rw [service, forgetDecoration_eq]
  cases h : m.guards with
  | nil => simp [service, h]
  | cons g rest =>
      simp only [List.modifyHead_cons, List.head?_cons, service, h, Option.map_some]
      split <;> rfl

theorem service_beginHandling :
    (m.beginHandling handler raised).service = m.service.map fun s => (s.1, true) := by
  rw [service, beginHandling_eq]
  cases h : m.guards <;> simp [service, h]

theorem service_endHandling {position : Nat} {answer : Option Value} :
    (m.endHandling position raised answer).service = m.service.map fun s => (s.1, false) := by
  rw [service, endHandling_eq]
  cases h : m.guards <;> simp [service, h]

/-- Code of a frame keeps the handler of the innermost protected call, and lets it run at its turns
    only. -/
theorem Runs.service (h : Runs q m m') (hm : m.Framed) (hclosed : m'.closed = m.closed) :
    m'.service = m.service := by
  refine h.induction (P := fun m m' => m'.service = m.service) hm hclosed (fun _ => rfl)
    (fun _ _ _ h h' => h'.trans h) ?change (fun _ => service_forgetDecoration) (fun _ h => h)
    ?protect ?handle ?cycle ?turned
  case change =>
    intro m m' _ h
    rw [Machine.service, h.guards, Machine.service]
  case protect =>
    intro m m' handler h _
    rw [Machine.service, show m'.popGuard.guards = m.guards from h.guards, Machine.service]
  case handle =>
    intro m m' handler raised answer hheeds _ _ _ hinner
    rw [service_endHandling, hinner, service_beginHandling, heeds_iff.mp hheeds]
    rfl
  case cycle =>
    intro m _
    obtain ⟨heap, events, heq⟩ := m.cycle_eq
    rw [heq, Machine.service, Machine.service]
  case turned =>
    intro m slot
    obtain ⟨events, heq⟩ := turned_eq m slot
    rw [heq, Machine.service, Machine.service]

theorem Runs.heeds (h : Runs q m m') (hm : m.Framed) (hclosed : m'.closed = m.closed) :
    m'.Heeds handler ↔ m.Heeds handler := by
  rw [heeds_iff, heeds_iff, h.service hm hclosed]

/-! ## Which handlers run -/

/-- Code of the frame cannot start the message handlers of the protected calls up to a level: they
    are not those of the innermost one, or that has no handler or a running one. -/
def Shields (m : Machine) (level : Nat) : Prop :=
  level < m.guards.length ∨ level = m.guards.length ∧ ∀ handler, ¬ m.Heeds handler

theorem Isolated.guards_length (h : Isolated m m') : m'.guards.length = m.guards.length := by
  simpa using congrArg List.length h.handlers

theorem Runs.shields (h : Runs q m m') (hm : m.Framed) (hclosed : m'.closed = m.closed)
    (hlevel : m.Shields level) : m'.Shields level := by
  rw [Shields, (h.isolated hm hclosed).guards_length]
  exact hlevel.imp_right fun ⟨hsame, hidle⟩ => ⟨hsame, fun handler hh =>
    hidle handler ((h.heeds hm hclosed).mp hh)⟩

/-- From one machine to another the message handlers of the protected calls up to certain levels do
    not start to run, unless the machine is closed. -/
def Spared (P : Nat → Prop) (m m' : Machine) : Prop :=
  ∃ new, m'.events = new ++ m.events ∧ (m'.closed ≠ m.closed → .closing ∈ new) ∧
    ∀ level, P level → Spares level new

theorem Spared.refl (P : Nat → Prop) (m : Machine) : Spared P m m :=
  ⟨[], rfl, fun hne => (hne rfl).elim, fun _ _ => trivial⟩

theorem Spared.trans {P P' : Nat → Prop} (h : Spared P m m') (h' : Spared P' m' m'')
    (hP : m'.closed = m.closed → ∀ level, P level → P' level) : Spared P m m'' := by
  obtain ⟨first, hfirst, hclosing, hspares⟩ := h
  obtain ⟨last, hlast, hclosing', hspares'⟩ := h'
  refine ⟨last ++ first, by rw [hlast, hfirst, List.append_assoc], fun hne => ?_,
    fun level hlevel => ?_⟩
  · by_cases hc : m'.closed = m.closed
    · exact List.mem_append_left _ (hclosing' fun h => hne (h.trans hc))
    · exact List.mem_append_right _ (hclosing hc)
  · by_cases hc : m'.closed = m.closed
    · exact (hspares' level (hP hc level hlevel)).append (hspares level hlevel)
    · exact .closed (hclosing hc) (hspares level hlevel)

theorem Spared.of_plain {P : Nat → Prop} {new : List Event} (hevents : m'.events = new ++ m.events)
    (hclosed : m'.closed = m.closed) (hplain : ∀ e ∈ new, e.IsPlain) : Spared P m m' :=
  ⟨new, hevents, fun hne => (hne hclosed).elim, fun _ _ => Event.spares_of_plain hplain⟩

theorem le_of_shields (h : m.Shields level) : level ≤ m.guards.length :=
  h.elim Nat.le_of_lt fun h => Nat.le_of_eq h.1

/-- The protected call of a turn shields all protected calls around it. -/
theorem spared_turn (hm : m.Framed)
    (h : Spared ((m.turned slot).pushGuard {}).Shields ((m.turned slot).pushGuard {}) m') :
    Spared (· ≤ m.guards.length) m m'.popGuard := by
  have hturned := turned_isolated slot hm
  obtain ⟨first, hfirst, hplain⟩ := turned_plain m slot
  have hstart : Spared (· ≤ m.guards.length) m (m.turned slot) :=
    .of_plain hfirst hturned.closed hplain
  refine hstart.trans h fun _ level hlevel => .inl ?_
  exact Nat.lt_succ_of_le (hturned.guards_length.symm ▸ hlevel)

theorem spared_cycle {P : Nat → Prop} (hm : m.Framed) : Spared P m m.cycle.2.2 := by
  obtain ⟨queued, hevents, hplain⟩ := m.cycle_log
  refine ⟨_, hevents, fun hne => (hne (cycle_isolated hm).closed).elim, fun level _ => ?_⟩
  have hfirst : Spares level [.cycle m.Reached] := trivial
  exact (Event.spares_of_plain hplain).append hfirst

theorem spared_shut {P : Nat → Prop} : Spared P m m.shut.2 := by
  obtain ⟨queued, hevents, hplain⟩ := m.shut_log
  refine ⟨_, hevents, fun _ => by simp, fun level _ => ?_⟩
  have hfirst : Spares level [.closing] := trivial
  exact (Event.spares_of_plain hplain).append hfirst

/-- Only the handler of the innermost protected call starts, and while it can, that call shields no
    level. -/
theorem spared_beginHandling (hheeds : m.Heeds handler) :
    Spared m.Shields m (m.beginHandling handler raised) := by
  refine ⟨[.handling m.guards.length handler raised], by rw [beginHandling_eq]; rfl,
    fun hne => ?_, fun level hlevel => ⟨.inl ?_, trivial⟩⟩
  · rw [beginHandling_eq] at hne
    exact (hne rfl).elim
  · exact hlevel.resolve_right fun h => h.2 handler hheeds

theorem closed_endHandling {position : Nat} {answer : Option Value} :
    (m.endHandling position raised answer).closed = m.closed := by
  obtain ⟨outcome, strings, h⟩ := m.handlerOutcome_eq answer
  rw [endHandling_eq, h]

theorem spared_endHandling {P : Nat → Prop} {position : Nat} {answer : Option Value} :
    Spared P m (m.endHandling position raised answer) := by
  have hevents : (m.endHandling position raised answer).events = [_] ++ m.events := endHandling_events
  exact .of_plain hevents closed_endHandling (by simp [Event.IsPlain])

/-- Handlers of outer protected calls do not start to run in code that is called inside, unless the
    machine is closed. -/
theorem Runs.spared (h : Runs q m m') (hm : m.Framed) : Spared m.Shields m m' := by
  induction h with
  | refl => exact .refl _ _
  | trans h h' ih ih' =>
      exact (ih hm).trans (ih' (h.framed hm)) fun hc level => h.shields hm hc
  | change h =>
      obtain ⟨new, hevents, hplain⟩ := h.plain
      exact .of_plain hevents (h.isolated hm).closed hplain
  | forget m =>
      rw [forgetDecoration_eq]
      exact .refl _ _
  | call f hbase hlt _ ih => exact ih hlt
  | protect handler _ ih =>
      obtain ⟨new, hevents, hclosing, hspares⟩ := ih hm
      exact ⟨new, hevents, hclosing, fun level hlevel =>
        hspares level (.inl (Nat.lt_succ_of_le (le_of_shields hlevel)))⟩
  | @handle m m' handler raised answer hheeds h hbase ih =>
      have hbegun := (Service.begun handler raised hheeds).isolated hm
      have hend : Spared (fun _ => True) m' (m'.endHandling m.stack.size raised answer) :=
        spared_endHandling
      refine (spared_beginHandling hheeds).trans ((ih hbegun.framed).trans hend fun _ _ _ => trivial)
        fun _ level hlevel => ?_
      rw [Shields, hbegun.guards_length]
      exact .inl (hlevel.resolve_right fun h => h.2 handler hheeds)
  | @collect m m' hopen h ih =>
      refine (spared_cycle hm).trans (ih (cycle_isolated hm).framed) fun _ level hlevel => ?_
      obtain ⟨heap, events, heq⟩ := m.cycle_eq
      rw [heq]
      exact hlevel
  | @close m m' hopen h ih =>
      have hshut := shut_closed hopen
      refine spared_shut.trans (ih hshut.framed) fun hc => ?_
      rw [hshut.closed, hshut.opened] at hc
      cases hc
  | @turn m m' slot h ih =>
      obtain ⟨new, hevents, hclosing, hspares⟩ := spared_turn hm (ih (turned_isolated slot hm).framed)
      exact ⟨new, hevents, hclosing, fun level hlevel => hspares level (le_of_shields hlevel)⟩

/-! ## What a handler made of an error -/

/-- What a message handler made of an error is its answer, or the text that says that it failed. -/
def Outcome (m : Machine) (outcome : Value) : Option Value → Prop
  | some v => outcome = v
  | none => ∃ id, outcome = .string id ∧
      m.strings.strings[id]? = some (Utf8.encode ScriptError.errorInHandler.message)

theorem Outcome.extend {outcome : Value} {answer : Option Value} (h : m.Outcome outcome answer)
    (hstrings : m.strings.Extends m'.strings) : m'.Outcome outcome answer := by
  cases answer with
  | some v => exact h
  | none =>
      obtain ⟨id, hid, htext⟩ := h
      exact ⟨id, hid, hstrings _ _ htext⟩

theorem outcome_endHandling {position : Nat} {answer : Option Value} :
    (m.endHandling position raised answer).Outcome (m.handlerOutcome answer).1 answer := by
  rw [endHandling_eq]
  cases answer with
  | some v => exact rfl
  | none => exact ⟨_, rfl, StringPool.intern_found⟩

theorem decoration_endHandling {position : Nat} {answer : Option Value}
    (h : (m.endHandling position raised answer).guards.head? = some g) :
    g.decoration = some { raised, outcome := (m.handlerOutcome answer).1 } := by
  rw [endHandling_eq] at h
  cases hguards : m.guards with
  | nil => simp [hguards] at h
  | cons g₁ rest =>
      simp only [hguards, List.modifyHead_cons, List.head?_cons, Option.some.injEq] at h
      rw [← h]

/-- How code of a frame deals with what stands of the errors that handlers saw. Cycles reach the
    errors of outer protected calls. What stands in the innermost protected call in the end stood in
    the beginning, or a run of its handler made it; since then cycles reached the error. -/
structure Tends (m m' : Machine) (new : List Event) : Prop where
  log : m'.events = new ++ m.events
  outer : ∀ g ∈ m.guards.tail, ∀ d, g.decoration = some d → Reaching d.raised new
  inner : ∀ g' d, m'.guards.head? = some g' → g'.decoration = some d →
    (∃ g, m.guards.head? = some g ∧ g.decoration = some d ∧ Reaching d.raised new) ∨
    ∃ handler answer during later, m'.Heeds handler ∧
      Served m.guards.length handler d.raised answer during later new ∧
      m'.Outcome d.outcome answer ∧ Reaching d.raised later

theorem Tends.of_guards {new : List Event} (hlog : m'.events = new ++ m.events)
    (hguards : m'.guards = m.guards)
    (hreach : ∀ g ∈ m.guards, ∀ d, g.decoration = some d → Reaching d.raised new) :
    Tends m m' new := by
  refine ⟨hlog, fun g hg => hreach g (List.mem_of_mem_tail hg), fun g d hg hd => .inl ?_⟩
  rw [hguards] at hg
  exact ⟨g, hg, hd, hreach g (List.mem_of_head? hg) d hd⟩

theorem Tends.trans {first last : List Event} (hisolated : Isolated m m') (hrun : Runs q m' m'')
    (hrest : Isolated m' m'') (h : Tends m m' first) (h' : Tends m' m'' last) :
    Tends m m'' (last ++ first) := by
  refine ⟨by rw [h'.log, h.log, List.append_assoc], fun g hg d hd => ?_, fun g'' d hg'' hd => ?_⟩
  · exact Event.reaching_append.mpr
      ⟨h'.outer g (hisolated.guards.symm ▸ hg) d hd, h.outer g hg d hd⟩
  · rcases h'.inner g'' d hg'' hd with ⟨g', hg', hd', hlast⟩ | ⟨handler, answer, during, later, hheeds,
      ⟨hquiet, earlier, hserved⟩, houtcome, hlater⟩
    · rcases h.inner g' d hg' hd' with ⟨g, hg, hd, hfirst⟩ | ⟨handler, answer, during, later, hheeds,
        ⟨hquiet, earlier, hserved⟩, houtcome, hlater⟩
      · exact .inl ⟨g, hg, hd, Event.reaching_append.mpr ⟨hlast, hfirst⟩⟩
      · refine .inr ⟨handler, answer, during, last ++ later, ?_, ⟨hquiet, earlier, ?_⟩,
          houtcome.extend hrun.strings, Event.reaching_append.mpr ⟨hlast, hlater⟩⟩
        · exact (hrun.heeds hisolated.framed hrest.closed).mpr hheeds
        · rw [hserved, List.append_assoc]
    · rw [hisolated.guards_length] at hquiet hserved
      refine .inr ⟨handler, answer, during, later, hheeds, ⟨hquiet, earlier ++ first, ?_⟩, houtcome,
        hlater⟩
      rw [hserved]
      simp

theorem tends_endHandling {answer : Option Value} (hheeds : m.Heeds handler)
    (hrun : Runs [] (m.beginHandling handler raised) m')
    (hisolated : Isolated (m.beginHandling handler raised) m')
    (hframed : (m.beginHandling handler raised).Framed) {inner : List Event}
    (h : Tends (m.beginHandling handler raised) m' inner) :
    Tends m (m'.endHandling m.stack.size raised answer)
      (.handled m.guards.length raised answer ::
        (inner ++ [.handling m.guards.length handler raised])) := by
  have hservice := hrun.service hframed hisolated.closed
  rw [service_beginHandling, heeds_iff.mp hheeds] at hservice
  have hlength : m'.guards.length = m.guards.length := by
    rw [hisolated.guards_length, beginHandling_eq, List.length_modifyHead]
  have hbusy : (m.beginHandling handler raised).Shields m.guards.length := by
    refine .inr ⟨by rw [beginHandling_eq, List.length_modifyHead], fun handler' h' => ?_⟩
    rw [heeds_iff, service_beginHandling, heeds_iff.mp hheeds] at h'
    simp at h'
  refine ⟨?_, fun g hg d hd => ?_, fun g' d hg' hd => .inr ?_⟩
  · rw [endHandling_events, h.log, hlength, beginHandling_eq]
    simp
  · have htail : g ∈ (m.beginHandling handler raised).guards.tail := by
      rw [beginHandling_eq, List.tail_modifyHead]
      exact hg
    have hstart : Reaching d.raised [.handling m.guards.length handler raised] := by
      simp [Reaching]
    have hend : Reaching d.raised [.handled m.guards.length raised answer] :=
      Event.reaching_of_plain (by simp [Event.IsPlain])
    exact Event.reaching_append.mpr ⟨hend, Event.reaching_append.mpr ⟨h.outer g htail d hd, hstart⟩⟩
  · have hmade := decoration_endHandling hg'
    rw [hd, Option.some.injEq] at hmade
    subst hmade
    refine ⟨handler, answer, inner, [], ?_, ⟨?_, [], rfl⟩, outcome_endHandling,
      Event.reaching_of_plain (by simp)⟩
    · rw [heeds_iff, service_endHandling, hservice]
      rfl
    · obtain ⟨new, hlog, -, hspares⟩ := hrun.spared hframed
      rw [h.log] at hlog
      rw [List.append_cancel_right hlog]
      exact hspares _ hbusy

theorem Runs.tends (h : Runs q m m') (hm : m.Framed) (hclosed : m'.closed = m.closed) :
    ∃ new, Tends m m' new := by
  refine h.induction (P := fun m m' => ∃ new, Tends m m' new) hm hclosed ?refl ?trans ?change ?forget
    ?call ?protect ?handle ?cycle ?turned
  case refl =>
    intro m
    exact ⟨[], .of_guards rfl rfl fun _ _ _ _ => Event.reaching_of_plain (by simp)⟩
  case trans =>
    rintro q m m' m'' hisolated hrun hrest ⟨first, hfirst⟩ ⟨last, hlast⟩
    exact ⟨last ++ first, hfirst.trans hisolated hrun hrest hlast⟩
  case change =>
    intro m m' _ h
    obtain ⟨new, hlog, hplain⟩ := h.plain
    exact ⟨new, .of_guards hlog h.guards fun _ _ _ _ => Event.reaching_of_plain hplain⟩
  case forget =>
    intro m
    refine ⟨[], by rw [forgetDecoration_eq]; rfl, fun _ _ _ _ => Event.reaching_of_plain (by simp),
      fun g' d hg' hd => .inl ?_⟩
    rw [forgetDecoration_eq] at hg'
    cases hguards : m.guards with
    | nil => simp [hguards] at hg'
    | cons g rest =>
        simp only [hguards, List.modifyHead_cons, List.head?_cons, Option.some.injEq] at hg'
        refine ⟨g, rfl, ?_, Event.reaching_of_plain (by simp)⟩
        subst hg'
        split at hd
        · exact hd
        · cases hd
  case call =>
    rintro m m' f ⟨new, h⟩
    exact ⟨new, h.log, h.outer, h.inner⟩
  case protect =>
    rintro m m' handler hisolated ⟨new, h⟩
    exact ⟨new, .of_guards h.log hisolated.guards h.outer⟩
  case handle =>
    rintro m m' handler raised answer hheeds hrun hisolated hframed ⟨inner, h⟩
    exact ⟨_, tends_endHandling hheeds hrun hisolated hframed h⟩
  case cycle =>
    intro m _
    obtain ⟨heap, events, heq⟩ := m.cycle_eq
    obtain ⟨queued, hevents, -⟩ := m.cycle_log
    refine ⟨_, .of_guards hevents (by rw [heq]) fun g hg d hd => ?_⟩
    exact (Retains.cycle_iff.mpr fun r hr => .start (.raised hg hd) hr).reaching hevents
  case turned =>
    intro m slot
    obtain ⟨new, hlog, hplain⟩ := turned_plain m slot
    obtain ⟨events, heq⟩ := turned_eq m slot
    exact ⟨new, .of_guards hlog (by rw [heq]) fun _ _ _ _ => Event.reaching_of_plain hplain⟩

/-! ## The value of an error -/

variable {e : ScriptError} {depth position count : Nat} {wanted : Int}

/-- The value of an error stays the same as strings are added. -/
theorem toValue_extends {p p' : StringPool} (hp : p'.Sound)
    (hextends : (e.toValue p).2.Extends p') : e.toValue p' = ((e.toValue p).1, p') := by
  cases e with
  | value v => rfl
  | runtime | stackOverflow | errorInHandler =>
      have hfound := hextends _ _ StringPool.intern_found
      simp [ScriptError.toValue, StringPool.intern_again hp hfound]

theorem failProtected_plain (e : ScriptError) (depth position : Nat)
    (h : ∀ g, m.guards.head? = some g → g.decoration = none) :
    (m.failProtected depth position e).1 = e := by
  unfold failProtected
  cases hguards : m.guards with
  | nil => rfl
  | cons g rest => simp [h g (by simp [hguards])]

/-- The value of an error that fails a protected call is made in its strings. -/
theorem failProtected_value (m : Machine) (e : ScriptError) (depth position : Nat) :
    ∃ strings, m.strings.Extends strings ∧ (m.strings.Sound → strings.Sound) ∧
    (m.failProtected depth position e).2.stack.back? =
      some ((m.failProtected depth position e).1.toValue strings).1 ∧
    (m.failProtected depth position e).2.strings =
      ((m.failProtected depth position e).1.toValue strings).2 := by
  refine ⟨((m.popGuard.truncateFrames depth).errorValue e).2.strings, ?_, ?_, ?_, rfl⟩
  · cases e with
    | value => exact .refl _
    | runtime | stackOverflow | errorInHandler => exact StringPool.extends_intern _ _
  · exact fun hsound => errorValue_sound (m := m.popGuard.truncateFrames depth) hsound
  · exact Array.back?_push

/-- What a handler made of an error stands in the innermost protected call. -/
structure Decorated (e : ScriptError) (d : Decoration) (m : Machine) : Prop where
  guard : ∃ g, m.guards.head? = some g ∧ g.decoration = some d
  raised : e.toValue m.strings = (d.raised, m.strings)

/-- It takes the place of the error when that fails the protected call. -/
theorem Decorated.failProtected (h : m.Decorated e d) (depth position : Nat) :
    (m.failProtected depth position e).1 = .ofValue d.outcome m.strings ∧
      (m.failProtected depth position e).2.strings =
        ((ScriptError.ofValue d.outcome m.strings).toValue m.strings).2 := by
  obtain ⟨g, hguard, hd⟩ := h.guard
  obtain ⟨rest, hguards⟩ : ∃ rest, m.guards = g :: rest := by
    cases hguards : m.guards with
    | nil => simp [hguards] at hguard
    | cons g' rest =>
        simp only [hguards, List.head?_cons, Option.some.injEq] at hguard
        exact ⟨rest, by rw [hguard]⟩
  have herror : (m.popGuard.truncateFrames depth).errorValue e =
      (d.raised, m.popGuard.truncateFrames depth) := by
    simp [errorValue, popGuard, truncateFrames, h.raised]
  unfold Machine.failProtected
  rw [hguards, herror]
  simp only [hd, beq_self_eq_true, if_true]
  exact ⟨rfl, rfl⟩

end Machine

/-- The error that a protected call gives out when its handler gave an answer. -/
def ScriptError.ofAnswer (strings : StringPool) : Option Value → ScriptError
  | some v => .ofValue v strings
  | none => .runtime ScriptError.errorInHandler.message

namespace Machine

open Event (Reaching Spares Served)
open Act

variable {m m' : Machine} {host : Host} {handler : Value} {e final : ScriptError} {i : StackIndex}
  {position count : Nat} {wanted : Int}

/-- The text of a string that is not there is empty, and so it stays when that is made a string. -/
theorem get_intern_text (p : StringPool) (id : StringId) :
    (p.intern (Utf8.encode (Utf8.decodeLossy (p.get id)))).2.get id = p.get id := by
  rcases StringPool.strings_intern p (Utf8.encode (Utf8.decodeLossy (p.get id))) with h | ⟨-, h, -⟩
  · rw [StringPool.get, h, StringPool.get]
  · rw [StringPool.get, h, Array.getElem?_push]
    split
    · rename_i hid
      have habsent : p.get id = [] := by simp [StringPool.get, hid]
      rw [habsent, Option.getD_some]
      decide +kernel
    · rfl

theorem ofAnswer_kept (strings : StringPool) (answer : Option Value) :
    ScriptError.ofAnswer ((ScriptError.ofAnswer strings answer).toValue strings).2 answer =
      .ofAnswer strings answer := by
  cases answer with
  | none => rfl
  | some v =>
      cases v with
      | string id =>
          simp only [ScriptError.ofAnswer, ScriptError.ofValue, ScriptError.toValue,
            ScriptError.message, get_intern_text]
      | nil | bool | float | int | light | object | foreign => rfl

theorem Outcome.error {outcome : Value} {answer : Option Value} (h : m.Outcome outcome answer) :
    ScriptError.ofValue outcome m.strings = .ofAnswer m.strings answer := by
  cases answer with
  | some v => exact congrArg (ScriptError.ofValue · m.strings) h
  | none =>
      obtain ⟨id, rfl, htext⟩ := h
      have hget : m.strings.get id = Utf8.encode ScriptError.errorInHandler.message := by
        rw [StringPool.get, htext, Option.getD_some]
      rw [ScriptError.ofValue, hget, Utf8.decodeLossy_encode, ScriptError.ofAnswer]

/-- After an error was shown to a handler that is due, something stands for the error: what stood
    before, or what the handler has just answered. -/
theorem decorated_showHandler (hhost : host.Lawful) (hm : m.Reachable) (hheeds : m.Heeds handler)
    (hshow : (showHandler e : Act ScriptError Unit) host m = .ok () m')
    (hclosed : m'.closed = m.closed) : ∃ d, m'.Decorated e d ∧ d.raised = (m.errorValue e).1 ∧
      ((∃ g, m.guards.head? = some g ∧ g.decoration = some d) ∨ m'.Outcome d.outcome
        (answer host m.stack.size ((m.errorValue e).2.beginHandling handler (m.errorValue e).1))) := by
  have hruns := (showHandler_lawful e).run_ok hhost hm.framed hshow
  have hvalue : e.toValue m'.strings = ((m.errorValue e).1, m'.strings) := by
    have hleads := showHandler_leads (ε := ScriptError) (m := m) e hhost hm.framed
    exact toValue_extends (hm.runs hruns).named.sound (Op.after_ok hshow ▸ hleads).strings
  rcases showHandler_heeds (ε := ScriptError) e host hheeds with ⟨g, rest, d, hguards, hd, hraised, hrun⟩ | hrun
  · rw [hshow] at hrun
    cases hrun
    have hguards' : (m.errorValue e).2.guards = g :: rest := hguards
    refine ⟨d, ⟨⟨g, by rw [hguards']; rfl, hd⟩, hraised ▸ hvalue⟩, hraised, .inl ⟨g, ?_, hd⟩⟩
    rw [hguards]
    rfl
  · have hservice := hruns.service hm.framed hclosed
    rw [heeds_iff.mp hheeds] at hservice
    obtain ⟨g, hg, -⟩ := Option.map_eq_some_iff.mp hservice
    rw [hshow, runHandler_eq] at hrun
    cases hrun
    exact ⟨_, ⟨⟨g, hg, decoration_endHandling hg⟩, hvalue⟩, rfl, .inr outcome_endHandling⟩

/-- A protected call that fails comes to the error, shows it to its handler and makes its own of it. -/
theorem protectedCall_failed_runs {failed : Machine} (hm : m.Reachable) (hhost : host.Lawful)
    (hp : m.functionBelow? count = some position)
    (hcall : callAt position wanted host (m.pushGuard { handler := some (m.value i) }) = .error e failed)
    (hrun : protectedCall count wanted (some i) host m = .error final m') :
    ∃ shown, (showHandler e : Act ScriptError Unit) host failed = .ok () shown ∧
      Runs [] (m.pushGuard { handler := some (m.value i) }) failed ∧ Runs [] failed shown ∧
      final = (shown.failProtected m.depth position e).1 ∧ m' = (shown.failProtected m.depth position e).2 := by
  obtain ⟨shown, hshow, hfail⟩ := protectedCall_failed_eq (some i) hp hcall
  rw [hfail] at hrun
  cases hrun
  have hguarded := hm.pushGuard (some (m.value i))
  obtain ⟨hbase, hlt⟩ := functionBelow?_bounds hp
  have hcalled := callAt_leads (m := m.pushGuard { handler := some (m.value i) }) wanted hhost hbase hlt
    hguarded.framed
  rw [Op.after_error hcall] at hcalled
  exact ⟨shown, hshow, hcalled, (showHandler_lawful e).run_ok hhost (hguarded.runs hcalled).framed hshow, rfl, rfl⟩

/-- The error that a protected call with a handler gives out, unless the machine was closed
    meanwhile. -/
theorem protectedCall_answered {failed : Machine} (hm : m.Reachable) (hhost : host.Lawful)
    (hp : m.functionBelow? count = some position)
    (hcall : callAt position wanted host (m.pushGuard { handler := some (m.value i) }) =
      .error e failed)
    (hrun : protectedCall count wanted (some i) host m = .error final m')
    (hclosed : m'.closed = m.closed) :
    ∃ answer during later new, m'.events = new ++ m.events ∧
      Served (m.guards.length + 1) (m.value i) (failed.errorValue e).1 answer during later new ∧
      Reaching (failed.errorValue e).1 later ∧ final = .ofAnswer m'.strings answer := by
  obtain ⟨shown, hshow, hcalled, hshown, rfl, rfl⟩ := protectedCall_failed_runs hm hhost hp hcall hrun
  have hguarded := hm.pushGuard (some (m.value i))
  have hfailed := hguarded.runs hcalled
  have hclosed : shown.closed = m.closed := hclosed
  obtain ⟨hc, hc'⟩ := hcalled.closed_between hshown hguarded.framed hclosed
  have hheeds : failed.Heeds (m.value i) :=
    (hcalled.heeds hguarded.framed hc).mpr ⟨_, _, rfl, rfl, rfl⟩
  obtain ⟨d, hd, hraised, -⟩ := decorated_showHandler hhost hfailed hheeds hshow hc'
  obtain ⟨g, hg, hgd⟩ := hd.guard
  obtain ⟨new, htends⟩ := (hcalled.trans_nil hshown).tends hguarded.framed hclosed
  rcases htends.inner g d hg hgd with ⟨g', hg', hd', -⟩ | ⟨handler, answer, during, later, hheeds',
    hserved, houtcome, hlater⟩
  · obtain rfl := Option.some.inj hg'
    cases hd'
  · have hsame : handler = m.value i := by
      rw [(hcalled.trans_nil hshown).heeds hguarded.framed hclosed, heeds_iff] at hheeds'
      simpa [service, pushGuard, eq_comm] using hheeds'
    subst hsame
    obtain ⟨hfinal, hstrings⟩ := hd.failProtected m.depth position
    rw [houtcome.error] at hfinal hstrings
    refine ⟨answer, during, later, new, htends.log, hraised ▸ hserved, hraised ▸ hlater, ?_⟩
    rw [hfinal, hstrings, ofAnswer_kept]

/-- In a machine that was closed meanwhile no protected call is left to give an answer. -/
theorem protectedCall_closed {failed : Machine} (hm : m.Reachable) (hhost : host.Lawful)
    (hp : m.functionBelow? count = some position)
    (hcall : callAt position wanted host (m.pushGuard { handler := some (m.value i) }) =
      .error e failed)
    (hrun : protectedCall count wanted (some i) host m = .error final m')
    (hclosed : m'.closed ≠ m.closed) : final = e := by
  obtain ⟨shown, -, hcalled, hshown, rfl, rfl⟩ := protectedCall_failed_runs hm hhost hp hcall hrun
  have hguarded := hm.pushGuard (some (m.value i))
  apply failProtected_plain
  intro g hg
  cases (hcalled.trans_nil hshown).preserved hguarded.framed with
  | isolated h => exact (hclosed h.closed).elim
  | closed h => simp [h.guards] at hg

/-- Inside a protected call the handlers of the protected calls around it do not start to run. -/
theorem protectedCall_spared (hhost : host.Lawful) (hm : m.Framed) (count : Nat) (wanted : Int)
    (handler : Option StackIndex) :
    Spared (· ≤ m.guards.length) m (Op.after (protectedCall count wanted handler host) m) := by
  cases hp : m.functionBelow? count with
  | none =>
      have hnone : protectedCall count wanted handler host m =
          .error (.ofFault .tooFewValues) m := by
        rw [protectedCall, run_bind, run_lift, functionBelow_eq, hp]
      rw [Op.after_error hnone]
      exact .refl _ _
  | some position =>
      obtain ⟨hbase, hlt⟩ := functionBelow?_bounds hp
      have hinside : ∀ {last}, Runs [] (m.pushGuard { handler := handler.map m.value }) last →
          ∀ m', m'.events = last.events → m'.closed = last.closed →
            Spared (· ≤ m.guards.length) m m' := by
        intro last hrun m' hevents hclosed
        obtain ⟨new, hnew, hclosing, hspares⟩ := hrun.spared hm
        exact ⟨new, hevents.trans hnew, hclosed ▸ hclosing, fun level hlevel =>
          hspares level (.inl (Nat.lt_succ_of_le hlevel))⟩
      have hcalled := callAt_leads (m := m.pushGuard { handler := handler.map m.value }) wanted hhost
        hbase hlt hm
      cases hcall : callAt position wanted host (m.pushGuard { handler := handler.map m.value }) with
      | ok u m₁ =>
          rw [Op.after_ok hcall] at hcalled
          apply hinside hcalled <;> rw [Op.after_ok (by rw [protectedCall_eq hp, hcall])] <;> rfl
      | error e m₁ =>
          rw [Op.after_error hcall] at hcalled
          obtain ⟨shown, hshow, hfail⟩ := protectedCall_failed_eq handler hp hcall
          have hshown := (showHandler_lawful e).run_ok hhost (hcalled.framed hm) hshow
          apply hinside (hcalled.trans_nil hshown) <;> rw [Op.after_error hfail] <;> rfl

theorem turns_spared {ε : Type} (slots : List Nat) (hhost : host.Lawful) (hm : m.Framed) :
    Spared (· ≤ m.guards.length) m (Op.after ((slots.forM finalize : Act ε PUnit) host) m) := by
  induction slots generalizing m with
  | nil => exact .refl _ _
  | cons slot rest ih =>
      obtain ⟨m₁, hrun, hafter⟩ := turned_runs (ε := ε) slot hhost hm
      have hfirst := spared_turn hm (hrun.spared (turned_isolated slot hm).framed)
      have hturn := finalize_runs (ε := ε) slot hhost hm
      rw [after_turns, hafter] at *
      refine hfirst.trans (ih (hturn.framed hm)) fun hc level hlevel => ?_
      rw [(hturn.isolated hm hc).guards_length]
      exact hlevel

end Machine

end ScriptHost
