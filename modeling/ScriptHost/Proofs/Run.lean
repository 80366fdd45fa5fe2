import Mathlib.Logic.Relation
import ScriptHost.Proofs.Cycle

/-! # Runs

What code of one frame can do to a machine. A change is local to the frame: it keeps the stack below
the base. Calls, protected calls, cycles of the collector and turns of finalizers are brackets around
the run of other code, so that a run has the structure of the code that it is a run of. A run also
tells which queued slots it gives their turns; code leaves none behind that it queued itself.
-/

namespace ScriptHost

namespace Event

/-- How often a slot waits for its turn, by a log with the newest event first. -/
def waiting (slot : Nat) : List Event → Nat
  | [] => 0
  | .queued s _ :: earlier => waiting slot earlier + if s = slot then 1 else 0
  | .turn s :: earlier => waiting slot earlier - if s = slot then 1 else 0
  | _ :: earlier => waiting slot earlier

end Event

namespace Machine

/-- A step of the machine within a frame. -/
inductive Change (m : Machine) : Machine → Prop where
  | stack (s) : m.base ≤ s.size → (∀ i < m.base, s[i]? = m.stack[i]?) → Change m { m with stack := s }
  | intern (bytes) : Change m (m.intern bytes).2
  | heap (h) : m.heap.Change h → Change m { m with heap := h }
  /-- What the host keeps beside stack and heap. -/
  | host (globals callSite destroyed names journal) :
      Change m { m with globals, callSite, destroyed, names, journal }
  /-- What is cached for native functions stays or is forgotten. -/
  | cache (cache) : (∀ code v, cache.get? (.native code) = some v →
      m.cache.get? (.native code) = some v) → Change m { m with cache }
  /-- A function object of a native function is made and cached. -/
  | native (code) (f : Closure Native) : f.body.behaviour = .code code → Change m { m with
      heap := (m.heap.newFunction f).2
      cache := m.cache.insert (.native code) (.function (m.heap.newFunction f).1) }
  | constructed (slot) : Change m (m.note .constructed slot)

/-- The innermost protected call has a message handler that is not running. -/
def Heeds (m : Machine) (handler : Value) : Prop :=
  ∃ g rest, m.guards = g :: rest ∧ g.handler = some handler ∧ g.running = false

/-- A step that concerns the message handler of the innermost protected call. -/
inductive Service (m : Machine) : Machine → Prop where
  | forgotten : Service m m.forgetDecoration
  | begun (handler raised) : m.Heeds handler → Service m (m.beginHandling handler raised)
  | ended (position raised answer) : m.base ≤ position →
      Service m (m.endHandling position raised answer)

/-- The machine in which the finalizer of a queued userdata runs. The entry is recorded if there is a
    function to enter and no limit is in the way. -/
def turned (m : Machine) (slot : Nat) : Machine :=
  let m := m.beginTurn slot
  match m.metafield (.userdata slot) .finalizer with
  | .function _ =>
      if ((m.push .nil).push .nil).atLimit then m else m.note (.finalizing slot) slot
  | _ => m

/-- How often a slot waits for its turn. -/
def waiting (m : Machine) (slot : Nat) : Nat := Event.waiting slot m.events

/-- A run of code in one frame, with the slots that it gives their turns. -/
inductive Runs : List Nat → Machine → Machine → Prop where
  | refl (m) : Runs [] m m
  | trans {p q m m' m''} : Runs p m m' → Runs q m' m'' → Runs (p ++ q) m m''
  | change {m m'} : Change m m' → Runs [] m m'
  | forget (m) : Runs [] m m.forgetDecoration
  | call {m m'} (f : Frame) : m.base ≤ f.function → f.function < m.stack.size →
      Runs [] (m.enterFrame f) m' → Runs [] m m'.leaveFrame
  | protect {m m'} (handler) : Runs [] (m.pushGuard { handler }) m' → Runs [] m m'.popGuard
  | handle {m m'} {handler raised} (answer) : m.Heeds handler →
      Runs [] (m.beginHandling handler raised) m' → m'.base ≤ m.stack.size →
      Runs [] m (m'.endHandling m.stack.size raised answer)
  | collect {m m'} : m.closed = false → Runs m.cycle.1.reverse m.cycle.2.2 m' → Runs [] m m'
  | close {m m'} : m.closed = false → Runs m.shut.1.reverse m.shut.2 m' → Runs [] m m'
  /-- A turn has a protected call of its own, without a handler. -/
  | turn {m m' slot} : Runs [] ((m.turned slot).pushGuard {}) m' → Runs [slot] m m'.popGuard

/-- The same steps one by one. -/
inductive Move (m : Machine) : Machine → Prop where
  | change {m'} : Change m m' → Move m m'
  | service {m'} : Service m m' → Move m m'
  | enter (f : Frame) : m.base ≤ f.function → f.function < m.stack.size → Move m (m.enterFrame f)
  | leave : Move m m.leaveFrame
  | protect (handler) : Move m (m.pushGuard { handler })
  | unprotect : Move m m.popGuard
  | cycle : m.closed = false → Move m m.cycle.2.2
  | shut : m.closed = false → Move m m.shut.2
  /-- Only slots that wait have a turn. -/
  | turn (slot) : 0 < m.waiting slot → Move m (m.turned slot)

/-- Any number of steps. -/
def Moves : Machine → Machine → Prop := Relation.ReflTransGen Move

/-- The states of a machine. -/
def Reachable (m : Machine) : Prop := ∃ limits, Moves (create limits) m

variable {m m' m'' : Machine} {p q : List Nat} {slot : Nat}

theorem Runs.trans_nil (h : Runs [] m m') (h' : Runs q m' m'') : Runs q m m'' := h.trans h'

/-- What a step keeps in a new machine and from one machine to the next holds of every state. -/
theorem Reachable.induction {P : Machine → Prop} (hm : m.Reachable)
    (hcreate : ∀ limits, P (create limits)) (hmove : ∀ {m m'}, Move m m' → P m → P m') : P m := by
  obtain ⟨limits, hm⟩ := hm
  induction hm with
  | refl => exact hcreate limits
  | tail _ hstep ih => exact hmove hstep ih

theorem reachable_create (limits : Limits) : (create limits).Reachable := ⟨limits, .refl⟩

theorem Reachable.moves (hm : m.Reachable) (h : Moves m m') : m'.Reachable := by
  obtain ⟨limits, hm⟩ := hm
  exact ⟨limits, hm.trans h⟩

/-! ## Logs of steps -/

variable {events : List Event}

theorem modifyGuard_eq (f : Guard → Guard) :
    m.modifyGuard f = { m with guards := m.guards.modifyHead f } := by
  rcases m with ⟨stack, frames, heap, strings, registry, globals, cache, _ | _⟩ <;> rfl

theorem forgetDecoration_eq : m.forgetDecoration = { m with
    guards := m.guards.modifyHead fun g => if g.running then g else { g with decoration := none } } :=
  modifyGuard_eq _

theorem beginHandling_eq (handler raised : Value) : m.beginHandling handler raised =
    { m with
      guards := m.guards.modifyHead fun g => { g with running := true }
      events := .handling m.guards.length handler raised :: m.events
      stack := (m.stack.push handler).push raised } := by
  rw [beginHandling, modifyGuard_eq]
  simp only [List.length_modifyHead, push]

/-- The outcome of a message handler is at most a new string. -/
theorem handlerOutcome_eq (answer : Option Value) :
    ∃ outcome strings, m.handlerOutcome answer = (outcome, { m with strings }) := by
  cases answer with
  | some v => exact ⟨v, m.strings, rfl⟩
  | none => exact ⟨_, _, rfl⟩

theorem endHandling_eq (position : Nat) (raised : Value) (answer : Option Value) :
    m.endHandling position raised answer =
      { (m.handlerOutcome answer).2 with
        stack := m.stack.shrink position
        guards := m.guards.modifyHead fun g => { g with
          running := false
          decoration := some { raised, outcome := (m.handlerOutcome answer).1 } }
        events := .handled m.guards.length raised answer :: m.events } := by
  obtain ⟨outcome, strings, h⟩ := m.handlerOutcome_eq answer
  simp only [endHandling, h, modifyGuard_eq, truncate, List.length_modifyHead]

/-- What concerns a message handler changes the stack, the protected calls, the log and the strings only. -/
theorem Service.eq (h : Service m m') :
    ∃ stack guards events strings, m' = { m with stack, guards, events, strings } := by
  cases h with
  | forgotten => exact ⟨_, _, _, _, forgetDecoration_eq⟩
  | begun handler raised => exact ⟨_, _, _, _, beginHandling_eq handler raised⟩
  | ended position raised answer =>
      obtain ⟨outcome, strings, h⟩ := m.handlerOutcome_eq answer
      have heq := m.endHandling_eq position raised answer
      rw [h] at heq
      exact ⟨_, _, _, _, heq⟩

theorem endHandling_events {position : Nat} {raised : Value} {answer : Option Value} :
    (m.endHandling position raised answer).events =
      .handled m.guards.length raised answer :: m.events := by
  rw [endHandling_eq]

/-- A change records at most that a constructor returned. -/
theorem Change.log (h : Change m m') :
    ∃ later, m'.events = later ++ m.events ∧ ∀ e ∈ later, ∃ serial, e = .constructed serial := by
  cases h with
  | stack | intern | heap | host | cache | native => exact ⟨[], rfl, by simp⟩
  | constructed s =>
      rw [note_eq]
      refine ⟨_, rfl, fun e he => ?_⟩
      obtain ⟨u, -, rfl⟩ := Option.map_eq_some_iff.mp (Option.mem_toList.mp he)
      exact ⟨_, rfl⟩

theorem Change.guards (h : Change m m') : m'.guards = m.guards := by
  cases h with
  | constructed => rw [note_eq]
  | stack | intern | heap | host | cache | native => rfl

theorem Change.waiting (h : Change m m') : m'.waiting slot = m.waiting slot := by
  cases h with
  | stack | intern | heap | host | cache | native => rfl
  | constructed s =>
      rw [note_eq]
      cases m.heap.userdata? s <;> rfl

theorem Service.waiting (h : Service m m') : m'.waiting slot = m.waiting slot := by
  cases h with
  | forgotten =>
      rw [forgetDecoration_eq]
      rfl
  | begun =>
      rw [beginHandling_eq]
      rfl
  | ended =>
      rw [Machine.waiting, endHandling_events]
      rfl

theorem waiting_queued (h : Heap Native) (slots : List Nat)
    (hslots : ∀ s ∈ slots, h.userdata? s ≠ none) :
    Event.waiting slot ((slots.filterMap (queuedEvent? h)).reverse ++ events) =
      Event.waiting slot events + slots.count slot := by
  induction slots generalizing events with
  | nil => rfl
  | cons s slots ih =>
      obtain ⟨u, hu⟩ := Option.ne_none_iff_exists'.mp (hslots s List.mem_cons_self)
      have hevent : queuedEvent? h s = some (.queued s u.serial) := by simp [queuedEvent?, hu]
      rw [List.filterMap_cons, hevent, List.reverse_cons, List.append_assoc,
        ih fun t ht => hslots t (List.mem_cons_of_mem _ ht)]
      simp only [List.singleton_append, Event.waiting, List.count_cons, beq_iff_eq]
      omega

theorem cycle_events : m.cycle.2.2.events =
    (m.cycle.1.filterMap (queuedEvent? m.heap)).reverse ++ .cycle m.Reached :: m.events := by
  change (m.markReachable.enqueue m.cycle.1).events = _
  rw [enqueue_eq]
  rfl

theorem shut_events : m.shut.2.events =
    (m.shut.1.filterMap (queuedEvent? m.heap)).reverse ++ .closing :: m.events := by
  simp only [shut, enqueue_eq]
  rfl

theorem waiting_cycle : m.cycle.2.2.waiting slot = m.waiting slot + m.cycle.1.count slot := by
  rw [waiting, cycle_events, waiting_queued]
  · rfl
  · intro s hs
    obtain ⟨u, hu, -⟩ := mem_cycle_queue.mp hs
    simp [hu]

theorem waiting_shut : m.shut.2.waiting slot = m.waiting slot + m.shut.1.count slot := by
  rw [waiting, shut_events, waiting_queued]
  · rfl
  · intro s hs
    obtain ⟨u, hu, -⟩ := Heap.mem_finalizable.mp hs
    rw [show m.heap.userdata? s = some u from hu]
    simp

/-- A turn is recorded, and the entry of the finalizer if there is one. -/
theorem turned_events (m : Machine) (slot : Nat) : (m.turned slot).events = .turn slot :: m.events ∨
    ∃ u, m.heap.userdata? slot = some u ∧
      (m.turned slot).events = .finalizing slot u.serial :: .turn slot :: m.events := by
  unfold turned
  dsimp only
  split
  · split
    · exact .inl rfl
    · rw [note_eq]
      cases hu : (m.beginTurn slot).heap.userdata? slot with
      | none => exact .inl rfl
      | some u => exact .inr ⟨u, hu, rfl⟩
  · exact .inl rfl

/-- A turn changes the flag of its slot and the log. -/
theorem turned_eq (m : Machine) (slot : Nat) : ∃ events, m.turned slot =
    { m with heap := m.heap.setFinalized slot, events := events } := by
  unfold turned
  dsimp only
  split
  · split
    · exact ⟨_, rfl⟩
    · rw [note_eq]
      exact ⟨_, rfl⟩
  · exact ⟨_, rfl⟩

theorem waiting_turned {s : Nat} :
    (m.turned slot).waiting s = m.waiting s - if slot = s then 1 else 0 := by
  rcases turned_events m slot with h | ⟨u, -, h⟩ <;> rw [waiting, h] <;> rfl

/-- A run is a sequence of steps when the slots that it gives their turns wait for them, and it
    leaves waiting what waited for other code. -/
theorem Runs.moves_waiting (h : Runs q m m') (hq : ∀ slot, q.count slot ≤ m.waiting slot) :
    Moves m m' ∧ ∀ slot, m'.waiting slot + q.count slot = m.waiting slot := by
  induction h with
  | refl => exact ⟨.refl, fun _ => rfl⟩
  | @trans p q m m' m'' _ _ ih ih' =>
      simp only [List.count_append] at hq ⊢
      obtain ⟨hmoves, hwait⟩ := ih fun slot => Nat.le_of_add_right_le (hq slot)
      obtain ⟨hmoves', hwait'⟩ := ih' fun slot => by
        have := hq slot
        have := hwait slot
        omega
      refine ⟨hmoves.trans hmoves', fun slot => ?_⟩
      have := hwait slot
      have := hwait' slot
      omega
  | change h => exact ⟨.single (.change h), fun _ => h.waiting⟩
  | forget => exact ⟨.single (.service .forgotten), fun _ => Service.forgotten.waiting⟩
  | call f hbase hsize _ ih =>
      obtain ⟨hmoves, hwait⟩ := ih hq
      exact ⟨(Relation.ReflTransGen.head (.enter f hbase hsize) hmoves).tail .leave, hwait⟩
  | protect handler _ ih =>
      obtain ⟨hmoves, hwait⟩ := ih hq
      exact ⟨(Relation.ReflTransGen.head (.protect handler) hmoves).tail .unprotect, hwait⟩
  | @handle m m' handler raised answer hheeds _ hbase ih =>
      obtain ⟨hmoves, hwait⟩ := ih fun _ => Nat.zero_le _
      have hend : Service m' (m'.endHandling m.stack.size raised answer) := .ended _ _ _ hbase
      refine ⟨(Relation.ReflTransGen.head (.service (.begun _ _ hheeds)) hmoves).tail
        (.service hend), fun slot => ?_⟩
      rw [hend.waiting, hwait slot]
      exact (Service.begun handler raised hheeds).waiting
  | @collect m m' hopen _ ih =>
      obtain ⟨hmoves, hwait⟩ := ih fun slot => by
        rw [List.count_reverse, waiting_cycle]
        omega
      refine ⟨Relation.ReflTransGen.head (.cycle hopen) hmoves, fun slot => ?_⟩
      have := hwait slot
      rw [List.count_reverse, waiting_cycle] at this
      simpa using this
  | @close m m' hopen _ ih =>
      obtain ⟨hmoves, hwait⟩ := ih fun slot => by
        rw [List.count_reverse, waiting_shut]
        omega
      refine ⟨Relation.ReflTransGen.head (.shut hopen) hmoves, fun slot => ?_⟩
      have := hwait slot
      rw [List.count_reverse, waiting_shut] at this
      simpa using this
  | @turn m m' slot _ ih =>
      obtain ⟨hmoves, hwait⟩ := ih fun s => Nat.zero_le _
      have hpos : 1 ≤ m.waiting slot := by simpa using hq slot
      refine ⟨(Relation.ReflTransGen.head (.turn slot hpos)
        (.head (.protect none) hmoves)).tail .unprotect, fun s => ?_⟩
      have hrest : m'.popGuard.waiting s = (m.turned slot).waiting s := hwait s
      rw [waiting_turned] at hrest
      by_cases hs : slot = s
      · subst hs
        rw [if_pos rfl] at hrest
        rw [List.count_singleton_self]
        omega
      · rw [if_neg hs] at hrest
        simpa [hs] using hrest

theorem Runs.moves (h : Runs [] m m') : Moves m m' := (h.moves_waiting fun _ => Nat.zero_le _).1

theorem Reachable.runs (hm : m.Reachable) (h : Runs [] m m') : m'.Reachable := hm.moves h.moves

end Machine

end ScriptHost
