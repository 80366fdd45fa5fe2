import ScriptHost.Proofs.Lawful.Program
import ScriptHost.Proofs.States

/-! # Finalizers

The finalizer of a userdata is entered once, and before the machine is closed only when a cycle found
the userdata unreachable, as long as every cycle that starts while the userdata waits for its turn
reaches it from the roots. A cycle that starts then and does not reach it queues it once more.
-/

namespace ScriptHost

namespace Event

variable {slot s serial n : Nat} {log log' later earlier : List Event} {e : Event}

/-! ## Logs -/

/-- The serial of the userdata whose finalizer an event enters. -/
def serial? : Event → Option Nat
  | .finalizing _ serial => some serial
  | _ => none

/-- The userdata whose finalizers were entered, by serial. -/
def finalized (log : List Event) : List Nat := log.filterMap serial?

/-- While a slot waits for its turn the machine is not closed, and cycles that start reach the
    userdata in the slot. -/
def Calm (slot : Nat) : List Event → Prop
  | [] => True
  | .cycle reached :: earlier =>
      (waiting slot earlier = 0 ∨ reached ⟨.userdata, slot⟩) ∧ Calm slot earlier
  | .closing :: earlier => waiting slot earlier = 0 ∧ Calm slot earlier
  | _ :: earlier => Calm slot earlier

/-- Some cycle did not reach a userdata and queued it. Between the start of a cycle and what it
    queues nothing else happens. -/
def QueuedUnreached (slot serial : Nat) (log : List Event) : Prop :=
  ∃ recent queue reached older, log = recent ++ queue ++ .cycle reached :: older ∧
    .queued slot serial ∈ queue ∧ (∀ e ∈ queue, ∃ s n, e = .queued s n) ∧
    ¬ reached ⟨.userdata, slot⟩

/-- A userdata was queued by a cycle that did not reach it, or the machine is being closed. -/
def Justified (slot serial : Nat) (log : List Event) : Prop :=
  .closing ∈ log ∨ QueuedUnreached slot serial log

/-- The finalizers of userdata in a slot are entered with justification and for the first time. -/
def Orderly (slot : Nat) : List Event → Prop
  | [] => True
  | .finalizing s serial :: earlier =>
      (s = slot → Justified slot serial earlier ∧ serial ∉ finalized earlier) ∧ Orderly slot earlier
  | _ :: earlier => Orderly slot earlier

theorem mem_finalized : n ∈ finalized log ↔ ∃ s, .finalizing s n ∈ log := by
  rw [finalized, List.mem_filterMap]
  constructor
  · rintro ⟨e, he, hs⟩
    cases e <;> cases hs
    exact ⟨_, he⟩
  · rintro ⟨s, hs⟩
    exact ⟨_, hs, rfl⟩

theorem finalized_cons (h : e.serial? = none) : finalized (e :: log) = finalized log :=
  List.filterMap_cons_none h

theorem Calm.of_append (h : Calm slot (later ++ earlier)) : Calm slot earlier := by
  induction later with
  | nil => exact h
  | cons e later ih =>
      cases e with
      | cycle | closing => exact ih h.2
      | queued | turn | finalizing | constructed | handling | handled => exact ih h

theorem calm_append_queued (hlater : ∀ e ∈ later, ∃ s n, e = .queued s n)
    (h : Calm slot earlier) : Calm slot (later ++ earlier) := by
  induction later with
  | nil => exact h
  | cons e later ih =>
      obtain ⟨s, n, rfl⟩ := hlater e List.mem_cons_self
      exact ih fun e he => hlater e (List.mem_cons_of_mem _ he)

theorem Justified.append (h : Justified slot serial earlier) (later : List Event) :
    Justified slot serial (later ++ earlier) := by
  rcases h with h | ⟨recent, queue, reached, older, rfl, hrest⟩
  · exact .inl (List.mem_append_right _ h)
  · exact .inr ⟨later ++ recent, queue, reached, older, by simp, hrest⟩

theorem orderly_cons (h : e.serial? = none) : Orderly slot (e :: log) ↔ Orderly slot log := by
  cases e with
  | finalizing => cases h
  | cycle | closing | queued | turn | constructed | handling | handled => exact Iff.rfl

/-- Events that enter no finalizer. -/
theorem orderly_append (slot : Nat) (earlier : List Event) (h : ∀ e ∈ later, e.serial? = none) :
    finalized (later ++ earlier) = finalized earlier ∧
      (Orderly slot (later ++ earlier) ↔ Orderly slot earlier) := by
  induction later with
  | nil => exact ⟨rfl, Iff.rfl⟩
  | cons e later ih =>
      obtain ⟨hsame, horderly⟩ := ih fun e he => h e (List.mem_cons_of_mem _ he)
      have he := h e List.mem_cons_self
      exact ⟨(finalized_cons he).trans hsame, (orderly_cons he).trans horderly⟩

theorem Orderly.entry (h : Orderly slot (later ++ .finalizing slot serial :: earlier)) :
    Justified slot serial earlier ∧ serial ∉ finalized earlier := by
  induction later with
  | nil => exact h.1 rfl
  | cons e later ih =>
      cases e with
      | finalizing => exact ih h.2
      | cycle | closing | queued | turn | constructed | handling | handled => exact ih h

/-- A finalizer that was entered in order and in no other slot was entered once. -/
theorem Orderly.count_eq_one (h : Orderly slot log) (hin : .finalizing slot serial ∈ log)
    (hslot : ∀ s, .finalizing s serial ∈ log → s = slot) : (finalized log).count serial = 1 := by
  obtain ⟨later, earlier, rfl⟩ := List.append_of_mem hin
  have hfirst := h.entry.2
  have hlast : serial ∉ finalized later := by
    intro hmem
    obtain ⟨s, hs⟩ := mem_finalized.mp hmem
    obtain ⟨later, middle, rfl⟩ := List.append_of_mem hs
    obtain rfl := hslot s (by simp)
    rw [List.append_assoc] at h
    exact h.entry.2 (mem_finalized.mpr ⟨s, by simp⟩)
  have hsplit : finalized (later ++ .finalizing slot serial :: earlier) =
      finalized later ++ serial :: finalized earlier := by
    rw [finalized, List.filterMap_append]
    rfl
  rw [hsplit, List.count_append, List.count_eq_zero.mpr hlast, List.count_cons_self,
    List.count_eq_zero.mpr hfirst]

end Event

/-! ## What steps do to userdata -/

namespace Heap

variable {β : Type} {h h' : Heap β} {slot : Nat} {u : Userdata}

theorem Change.nextSerial_le (hc : Change h h') : h.nextSerial ≤ h'.nextSerial := by
  cases hc with
  | newUserdata => exact Nat.le_succ _
  | newTable | newFunction | newBoxed | entry | tableMeta | userMeta | userValue | upvalue
  | allocate | write => exact Nat.le_refl _

/-- A slot keeps its userdata and its flag, unless it was empty and gets a new one. -/
theorem Change.occupant (hc : Change h h') (hs : h.Sound) (slot : Nat) :
    h'.isFinalized slot = h.isFinalized slot ∧
        (h'.userdata? slot).map (·.serial) = (h.userdata? slot).map (·.serial) ∨
      h.userdata? slot = none ∧ ∃ u, h'.userdata? slot = some u ∧ u.serial = h.nextSerial := by
  have hmodify : ∀ {s : Nat} {f : Userdata → Userdata}, (∀ u, (f u).serial = u.serial) →
      ((h.modifyUserdata s f).userdata? slot).map (·.serial) =
        (h.userdata? slot).map (·.serial) := by
    intro s f hf
    rw [userdata?, modifyUserdata, Arena.get?_modify]
    split
    · rw [Option.map_map]
      exact Option.map_congr fun u _ => hf u
    · rfl
  cases hc with
  | newUserdata size =>
      rw [newUserdata_userdata? _ _ hs, newUserdata_isFinalized]
      by_cases hslot : slot = (h.newUserdata size).1
      · rw [if_pos hslot, if_pos hslot]
        refine .inr ⟨?_, _, rfl, rfl⟩
        rw [hslot, newUserdata_slot hs]
      · rw [if_neg hslot, if_neg hslot]
        exact .inl ⟨rfl, rfl⟩
  | userMeta | userValue => exact .inl ⟨rfl, hmodify fun _ => rfl⟩
  | newTable | newFunction | newBoxed | entry | tableMeta | upvalue | allocate | write =>
      exact .inl ⟨rfl, rfl⟩

end Heap

namespace Machine

open Event (Calm Justified Orderly QueuedUnreached finalized)

variable {m m' : Machine} {slot s n serial : Nat} {u : Userdata}

/-- Events of a step that enter no finalizer and change no queue. -/
theorem Change.events (h : Change m m') : ∃ later, m'.events = later ++ m.events ∧
    ∀ e ∈ later, e.serial? = none := by
  obtain ⟨later, hevents, hlater⟩ := h.log
  refine ⟨later, hevents, fun e he => ?_⟩
  obtain ⟨serial, rfl⟩ := hlater e he
  rfl

theorem Service.events (h : Service m m') : ∃ later, m'.events = later ++ m.events ∧
    ∀ e ∈ later, e.serial? = none := by
  cases h with
  | forgotten => exact ⟨[], by rw [forgetDecoration_eq]; rfl, by simp⟩
  | begun => exact ⟨[_], by rw [beginHandling_eq]; rfl, by simp [Event.serial?]⟩
  | ended => exact ⟨[_], endHandling_events, by simp [Event.serial?]⟩

theorem Change.occupant (h : Change m m') (hs : m.heap.Sound) (slot : Nat) :
    m'.heap.isFinalized slot = m.heap.isFinalized slot ∧
        (m'.heap.userdata? slot).map (·.serial) = (m.heap.userdata? slot).map (·.serial) ∨
      m.heap.userdata? slot = none ∧
        ∃ u, m'.heap.userdata? slot = some u ∧ u.serial = m.heap.nextSerial := by
  cases h with
  | heap h hc => exact hc.occupant hs slot
  | native code f => exact (Heap.Change.newFunction f).occupant hs slot
  | constructed => rw [heap_note]; exact .inl ⟨rfl, rfl⟩
  | stack | intern | host | cache => exact .inl ⟨rfl, rfl⟩

theorem queuedEvent?_serial? {h : Heap Native} {slots : List Nat} {e : Event}
    (he : e ∈ (slots.filterMap (queuedEvent? h)).reverse) : ∃ s n, e = .queued s n := by
  rw [List.mem_reverse, List.mem_filterMap] at he
  obtain ⟨s, -, he⟩ := he
  obtain ⟨u, -, rfl⟩ := Option.map_eq_some_iff.mp he
  exact ⟨s, u.serial, rfl⟩

/-! ## Serials -/

/-- A userdata in a slot was there before the step, or is newer than all there were. -/
theorem Move.inherited (h : Move m m') (hs : m.heap.Sound)
    (hu : m'.heap.userdata? slot = some u) :
    (∃ old, m.heap.userdata? slot = some old ∧ old.serial = u.serial) ∨
      u.serial = m.heap.nextSerial := by
  cases h with
  | change h =>
      rcases h.occupant hs slot with ⟨-, hserial⟩ | ⟨-, new, hnew, hserial⟩
      · rw [hu, Option.map_some] at hserial
        exact .inl (Option.map_eq_some_iff.mp hserial.symm)
      · obtain rfl := Option.some.inj (hu.symm.trans hnew)
        exact .inr hserial
  | service h =>
      rw [h.heap] at hu
      exact .inl ⟨u, hu, rfl⟩
  | cycle => exact .inl ⟨u, userdata?_cycle hu, rfl⟩
  | shut =>
      rw [shut_heap] at hu
      exact .inl ⟨u, hu, rfl⟩
  | turn s =>
      obtain ⟨events, h⟩ := turned_eq m s
      rw [h] at hu
      exact .inl ⟨u, hu, rfl⟩
  | enter | leave | protect | unprotect => exact .inl ⟨u, hu, rfl⟩

theorem Move.nextSerial_le (h : Move m m') : m.heap.nextSerial ≤ m'.heap.nextSerial := by
  cases h with
  | change h =>
      cases h with
      | heap h hc => exact hc.nextSerial_le
      | native code f => exact (Heap.Change.newFunction f).nextSerial_le
      | constructed => exact Nat.le_of_eq (by rw [heap_note])
      | stack | intern | host | cache => exact Nat.le_refl _
  | service h => exact Nat.le_of_eq (by rw [h.heap])
  | cycle => exact Nat.le_of_eq nextSerial_cycle.symm
  | shut => exact Nat.le_of_eq (by rw [shut_heap]; rfl)
  | turn s =>
      obtain ⟨events, h⟩ := turned_eq m s
      exact Nat.le_of_eq (by rw [h]; rfl)
  | enter | leave | protect | unprotect => exact Nat.le_refl _

theorem Moves.nextSerial_le (h : Moves m m') : m.heap.nextSerial ≤ m'.heap.nextSerial := by
  induction h with
  | refl => exact Nat.le_refl _
  | tail _ hstep ih => exact Nat.le_trans ih hstep.nextSerial_le

/-- A finalizer that a step enters is that of a userdata that is there. -/
theorem Move.finalizing (h : Move m m') (hin : .finalizing s n ∈ m'.events) :
    .finalizing s n ∈ m.events ∨ ∃ u, m.heap.userdata? s = some u ∧ u.serial = n := by
  have hquiet : ∀ {later : List Event}, (∀ e ∈ later, e.serial? = none) →
      .finalizing s n ∉ later := fun hlater hmem => by cases hlater _ hmem
  cases h with
  | change h =>
      obtain ⟨later, hevents, hlater⟩ := h.events
      rw [hevents, List.mem_append] at hin
      exact .inl (hin.resolve_left (hquiet hlater))
  | service h =>
      obtain ⟨later, hevents, hlater⟩ := h.events
      rw [hevents, List.mem_append] at hin
      exact .inl (hin.resolve_left (hquiet hlater))
  | cycle =>
      rw [cycle_events, List.mem_append, List.mem_cons] at hin
      rcases hin with hin | hin | hin
      · obtain ⟨_, _, he⟩ := queuedEvent?_serial? hin
        cases he
      · cases hin
      · exact .inl hin
  | shut =>
      rw [shut_events, List.mem_append, List.mem_cons] at hin
      rcases hin with hin | hin | hin
      · obtain ⟨_, _, he⟩ := queuedEvent?_serial? hin
        cases he
      · cases hin
      · exact .inl hin
  | turn slot =>
      rcases turned_events m slot with h | ⟨u, hu, h⟩ <;> rw [h] at hin
      · rcases List.mem_cons.mp hin with hin | hin
        · cases hin
        · exact .inl hin
      · rcases List.mem_cons.mp hin with hin | hin
        · cases hin
          exact .inr ⟨u, hu, rfl⟩
        · rcases List.mem_cons.mp hin with hin | hin
          · cases hin
          · exact .inl hin
  | enter | leave | protect | unprotect => exact .inl hin

/-- Userdata whose finalizers were entered are told by their serials: no other userdata, in another
    slot or created later, has the serial of one. -/
structure Recorded (m : Machine) : Prop where
  lt : ∀ {s n}, .finalizing s n ∈ m.events → n < m.heap.nextSerial
  place : ∀ {s t u}, .finalizing s u.serial ∈ m.events → m.heap.userdata? t = some u → t = s
  slot : ∀ {s t n}, .finalizing s n ∈ m.events → .finalizing t n ∈ m.events → t = s

theorem Move.recorded (h : Move m m') (hs : m.heap.Sound) (hm : m.Recorded) : m'.Recorded := by
  have hlt : ∀ {s n}, .finalizing s n ∈ m'.events → n < m.heap.nextSerial := by
    intro s n hin
    rcases h.finalizing hin with hin | ⟨u, hu, rfl⟩
    · exact hm.lt hin
    · exact hs.serial_lt hu
  refine ⟨fun hin => Nat.lt_of_lt_of_le (hlt hin) h.nextSerial_le, fun {s t u} hin hu => ?_,
    fun {s t n} hin hin' => ?_⟩
  · rcases h.inherited hs hu with ⟨old, hold, hserial⟩ | hfresh
    · rw [← hserial] at hin
      rcases h.finalizing hin with hin | ⟨v, hv, hsame⟩
      · exact hm.place hin hold
      · exact hs.serial_inj hold hv hsame.symm
    · exact absurd (hlt hin) (by omega)
  · rcases h.finalizing hin with hin | ⟨u, hu, rfl⟩
    · rcases h.finalizing hin' with hin' | ⟨v, hv, rfl⟩
      · exact hm.slot hin hin'
      · exact hm.place hin hv
    · rcases h.finalizing hin' with hin' | ⟨v, hv, hsame⟩
      · exact (hm.place hin' hu).symm
      · exact hs.serial_inj hv hu hsame

theorem Reachable.recorded (hm : m.Reachable) : m.Recorded := by
  have hboth : m.heap.Sound ∧ m.Recorded := by
    refine hm.induction (P := fun m => m.heap.Sound ∧ m.Recorded) (fun limits => ?_) fun h hm => ?_
    · exact ⟨(reachable_create limits).heap_sound, nofun, nofun, nofun⟩
    · exact ⟨h.heap_sound hm.1, h.recorded hm.1 hm.2⟩
  exact hboth.2

/-! ## Turns -/

/-- What the log tells of the userdata in a slot: it waits for one turn at most, with justification
    and without having been finalized; once its finalizer was entered it is flagged. -/
structure InTurn (slot : Nat) (m : Machine) : Prop where
  once : m.waiting slot ≤ 1
  waits : 0 < m.waiting slot → ∃ u, m.heap.userdata? slot = some u ∧
    m.heap.isFinalized slot = false ∧ Justified slot u.serial m.events
  flagged : ∀ {u}, m.heap.userdata? slot = some u → u.serial ∈ finalized m.events →
    m.heap.isFinalized slot = true
  orderly : Orderly slot m.events

theorem turned_log (m : Machine) (slot : Nat) :
    ∃ later, (m.turned slot).events = later ++ m.events := by
  rcases turned_events m slot with h | ⟨u, -, h⟩
  · exact ⟨[_], h⟩
  · exact ⟨[_, _], h⟩

/-- A step only adds to the log. -/
theorem Move.log (h : Move m m') : ∃ later, m'.events = later ++ m.events := by
  cases h with
  | change h =>
      obtain ⟨later, hevents, -⟩ := h.events
      exact ⟨later, hevents⟩
  | service h =>
      obtain ⟨later, hevents, -⟩ := h.events
      exact ⟨later, hevents⟩
  | cycle => exact ⟨_ ++ [_], by rw [cycle_events, List.append_assoc]; rfl⟩
  | shut => exact ⟨_ ++ [_], by rw [shut_events, List.append_assoc]; rfl⟩
  | turn s => exact turned_log m s
  | enter | leave | protect | unprotect => exact ⟨[], rfl⟩

theorem Moves.log (h : Moves m m') : ∃ later, m'.events = later ++ m.events := by
  induction h with
  | refl => exact ⟨[], rfl⟩
  | tail _ hstep ih =>
      obtain ⟨first, hfirst⟩ := ih
      obtain ⟨last, hlast⟩ := hstep.log
      exact ⟨last ++ first, by rw [hlast, hfirst, List.append_assoc]⟩

theorem Runs.log {q : List Nat} (h : Runs q m m') : ∃ later, m'.events = later ++ m.events := by
  have hstep : ∀ {m m' m'' : Machine}, (∃ later, m'.events = later ++ m.events) →
      (∃ later, m''.events = later ++ m'.events) → ∃ later, m''.events = later ++ m.events := by
    rintro m m' m'' ⟨first, h⟩ ⟨last, h'⟩
    exact ⟨last ++ first, by rw [h', h, List.append_assoc]⟩
  induction h with
  | refl => exact ⟨[], rfl⟩
  | trans _ _ ih ih' => exact hstep ih ih'
  | change h => exact (Move.change h).log
  | forget => exact (Move.service .forgotten).log
  | call _ _ _ _ ih | protect _ _ ih => exact ih
  | @handle _ _ handler raised answer hheeds _ hbase ih =>
      have hbegun := (Move.service (.begun handler raised hheeds)).log
      exact hstep (hstep hbegun ih) (Move.service (.ended _ raised answer hbase)).log
  | collect hopen _ ih => exact hstep (Move.cycle hopen).log ih
  | close hopen _ ih => exact hstep (Move.shut hopen).log ih
  | @turn m _ slot _ ih => exact hstep (turned_log m slot) ih

/-- A step that enters no finalizer, changes no queue, and at most puts new userdata into empty
    slots. -/
theorem InTurn.of_events {later : List Event} (hr : m.Recorded) (hm : m.InTurn slot)
    (hwaiting : m'.waiting slot = m.waiting slot) (hevents : m'.events = later ++ m.events)
    (hquiet : ∀ e ∈ later, e.serial? = none)
    (hoccupant : m'.heap.isFinalized slot = m.heap.isFinalized slot ∧
        (m'.heap.userdata? slot).map (·.serial) = (m.heap.userdata? slot).map (·.serial) ∨
      m.heap.userdata? slot = none ∧
        ∃ u, m'.heap.userdata? slot = some u ∧ u.serial = m.heap.nextSerial) : m'.InTurn slot := by
  obtain ⟨hfinalized, horderly⟩ := Event.orderly_append slot m.events hquiet
  refine ⟨?_, fun hwait => ?_, fun {u} hu hin => ?_, ?_⟩
  · rw [hwaiting]
    exact hm.once
  · rw [hwaiting] at hwait
    obtain ⟨u, hu, hflag, hjust⟩ := hm.waits hwait
    rcases hoccupant with ⟨hsame, hserial⟩ | ⟨hnone, -⟩
    · rw [hu, Option.map_some] at hserial
      obtain ⟨u', hu', hsame'⟩ := Option.map_eq_some_iff.mp hserial
      refine ⟨u', hu', hsame.trans hflag, ?_⟩
      rw [hevents, hsame']
      exact hjust.append _
    · rw [hnone] at hu
      cases hu
  · rw [hevents, hfinalized] at hin
    rcases hoccupant with ⟨hsame, hserial⟩ | ⟨-, new, hnew, hserial⟩
    · rw [hu, Option.map_some] at hserial
      obtain ⟨old, hold, hsame'⟩ := Option.map_eq_some_iff.mp hserial.symm
      rw [hsame]
      exact hm.flagged hold (hsame' ▸ hin)
    · obtain rfl := Option.some.inj (hu.symm.trans hnew)
      obtain ⟨s, hs⟩ := Event.mem_finalized.mp hin
      exact absurd (hr.lt hs) (by omega)
  · rw [hevents]
    exact horderly.mpr hm.orderly

theorem Change.inTurn (h : Change m m') (hs : m.heap.Sound) (hr : m.Recorded)
    (hm : m.InTurn slot) : m'.InTurn slot := by
  obtain ⟨later, hevents, hquiet⟩ := h.events
  exact hm.of_events hr h.waiting hevents hquiet (h.occupant hs slot)

theorem Service.inTurn (h : Service m m') (hr : m.Recorded) (hm : m.InTurn slot) :
    m'.InTurn slot := by
  obtain ⟨later, hevents, hquiet⟩ := h.events
  exact hm.of_events hr h.waiting hevents hquiet (by rw [h.heap]; exact .inl ⟨rfl, rfl⟩)

theorem queued_quiet (h : Heap Native) (slots : List Nat) {e : Event} (hlast : e.serial? = none) :
    ∀ e' ∈ (slots.filterMap (queuedEvent? h)).reverse ++ [e], e'.serial? = none := by
  intro e' he
  rcases List.mem_append.mp he with he | he
  · obtain ⟨s, n, rfl⟩ := queuedEvent?_serial? he
    rfl
  · rw [List.mem_singleton.mp he]
    exact hlast

theorem mem_queued {h : Heap Native} {slots : List Nat} (hslot : slot ∈ slots)
    (hu : h.userdata? slot = some u) :
    .queued slot u.serial ∈ (slots.filterMap (queuedEvent? h)).reverse :=
  List.mem_reverse.mpr (List.mem_filterMap.mpr ⟨slot, hslot, by rw [queuedEvent?, hu]; rfl⟩)

theorem cycle_inTurn (hs : m.heap.Sound) (hcalm : Calm slot m.cycle.2.2.events)
    (hm : m.InTurn slot) : m.cycle.2.2.InTurn slot := by
  have hevents := cycle_events (m := m)
  have hlog := Event.orderly_append slot m.events
    (queued_quiet m.heap m.cycle.1 (e := .cycle m.Reached) rfl)
  rw [List.append_assoc, List.singleton_append, ← hevents] at hlog
  obtain ⟨hfinalized, horderly⟩ := hlog
  rw [hevents] at hcalm
  have hquiet : m.waiting slot = 0 ∨ m.Reached ⟨.userdata, slot⟩ := hcalm.of_append.1
  have hcount : m.cycle.1.count slot ≤ 1 := List.nodup_iff_count_le_one.mp cycle_queue_nodup slot
  -- The slot is queued only if it does not wait yet: a cycle queues what it does not reach.
  have hexclusive : slot ∈ m.cycle.1 → m.waiting slot = 0 := by
    intro hslot
    obtain ⟨u, -, hreached, -, -⟩ := mem_cycle_queue.mp hslot
    exact hquiet.resolve_right hreached
  refine ⟨?_, fun hwait => ?_, fun {u} hu hin => ?_, horderly.mpr hm.orderly⟩
  · rw [waiting_cycle]
    by_cases hslot : slot ∈ m.cycle.1
    · rw [hexclusive hslot]
      omega
    · rw [List.count_eq_zero.mpr hslot]
      exact hm.once
  · rw [isFinalized_cycle, hevents]
    by_cases hslot : slot ∈ m.cycle.1
    · have hdue := mem_cycle_queue.mp hslot
      obtain ⟨u, hu, hreached, hflag, -⟩ := id hdue
      refine ⟨u, userdata?_cycle_of_kept hs hu (.inr (.start ⟨slot, hdue, rfl⟩ rfl)), hflag,
        .inr ⟨[], _, _, _, rfl, mem_queued hslot hu, fun e he => queuedEvent?_serial? he, hreached⟩⟩
    · rw [waiting_cycle, List.count_eq_zero.mpr hslot, Nat.add_zero] at hwait
      obtain ⟨u, hu, hflag, hjust⟩ := hm.waits hwait
      have hkept := userdata?_cycle_of_kept hs hu (.inl (hquiet.resolve_left (Nat.ne_of_gt hwait)))
      refine ⟨u, hkept, hflag, ?_⟩
      rw [← List.singleton_append, ← List.append_assoc]
      exact hjust.append _
  · rw [isFinalized_cycle]
    exact hm.flagged (userdata?_cycle hu) (hfinalized ▸ hin)

theorem shut_inTurn (hcalm : Calm slot m.shut.2.events) (hm : m.InTurn slot) :
    m.shut.2.InTurn slot := by
  have hevents := shut_events (m := m)
  have hlog := Event.orderly_append slot m.events
    (queued_quiet m.heap m.shut.1 (e := .closing) rfl)
  rw [List.append_assoc, List.singleton_append, ← hevents] at hlog
  obtain ⟨hfinalized, horderly⟩ := hlog
  rw [hevents] at hcalm
  have hquiet : m.waiting slot = 0 := hcalm.of_append.1
  have hcount : m.shut.1.count slot ≤ 1 :=
    List.nodup_iff_count_le_one.mp (Heap.finalizable_sorted.imp Nat.ne_of_lt) slot
  refine ⟨?_, fun hwait => ?_, fun {u} hu hin => ?_, horderly.mpr hm.orderly⟩
  · rw [waiting_shut, hquiet]
    omega
  · rw [waiting_shut, hquiet, Nat.zero_add] at hwait
    obtain ⟨u, hu, -, hflag, -⟩ := Heap.mem_finalizable.mp (List.count_pos_iff.mp hwait)
    rw [shut_heap, hevents]
    exact ⟨u, hu, hflag, .inl (List.mem_append_right _ List.mem_cons_self)⟩
  · rw [shut_heap] at hu ⊢
    exact hm.flagged hu (hfinalized ▸ hin)

theorem turned_inTurn (hs : m.heap.Sound) (hwait : 0 < m.waiting s)
    (hm : m.InTurn slot) : (m.turned s).InTurn slot := by
  obtain ⟨events, heq⟩ := turned_eq m s
  have huserdata : ∀ {t}, (m.turned s).heap.userdata? t = m.heap.userdata? t := by
    intro t
    rw [heq]
    rfl
  have hflags : (m.turned s).heap.isFinalized slot = (m.heap.setFinalized s).isFinalized slot := by
    rw [heq]
  by_cases hslot : s = slot
  · -- The turn of the slot itself.
    subst hslot
    obtain ⟨u, hu, hflag, hjust⟩ := hm.waits hwait
    have hset : (m.turned s).heap.isFinalized s = true := by
      rw [hflags, Heap.setFinalized, Heap.isFinalized,
        Array.getElem?_setIfInBounds_self_of_lt (hs.flagged hu)]
      rfl
    have hfirst : u.serial ∉ finalized m.events := fun hin => by
      rw [hm.flagged hu hin] at hflag
      cases hflag
    have honce := hm.once
    have hdone : (m.turned s).waiting s = 0 := by
      rw [waiting_turned, if_pos rfl]
      omega
    refine ⟨by omega, by omega, fun _ _ => hset, ?_⟩
    rcases turned_events m s with h | ⟨v, hv, h⟩ <;> rw [h]
    · exact hm.orderly
    · obtain rfl := Option.some.inj (hu.symm.trans hv)
      exact ⟨fun _ => ⟨hjust.append [_], hfirst⟩, hm.orderly⟩
  · have hsame : (m.turned s).heap.isFinalized slot = m.heap.isFinalized slot := by
      rw [hflags, Heap.setFinalized, Heap.isFinalized, Array.getElem?_setIfInBounds_ne hslot]
      rfl
    have hwaiting : (m.turned s).waiting slot = m.waiting slot := by
      rw [waiting_turned, if_neg hslot, Nat.sub_zero]
    obtain ⟨later, hlater⟩ := (Move.turn s hwait).log
    refine ⟨hwaiting ▸ hm.once, fun hpos => ?_, fun {u} hu hin => ?_, ?_⟩
    · obtain ⟨u, hu, hflag, hjust⟩ := hm.waits (hwaiting ▸ hpos)
      exact ⟨u, huserdata.trans hu, hsame.trans hflag, hlater ▸ hjust.append later⟩
    · rw [huserdata] at hu
      rw [hsame]
      refine hm.flagged hu ?_
      rcases turned_events m s with h | ⟨v, hv, h⟩ <;> rw [h] at hin
      · exact hin
      · rcases List.mem_cons.mp hin with hserial | hin
        · exact absurd (hs.serial_inj hv hu hserial.symm) hslot
        · exact hin
    · rcases turned_events m s with h | ⟨v, hv, h⟩ <;> rw [h]
      · exact hm.orderly
      · exact ⟨fun heq => absurd heq hslot, hm.orderly⟩

/-- What the turn of a userdata finds in its metatable. -/
theorem metafield_beginTurn {t : Table} {mt f : Nat} (hu : m.heap.userdata? slot = some u)
    (hmt : u.metatable = some mt) (ht : m.heap.tables.get? mt = some t)
    (hentry : t.get (.string Metafield.finalizer.id) = .function f) :
    (m.beginTurn slot).metafield (.userdata slot) .finalizer = .function f := by
  have hmeta : (m.beginTurn slot).metatable? (.userdata slot) = some mt := by
    change (m.heap.userdata? slot).bind (·.metatable) = some mt
    rw [hu, Option.bind_some, hmt]
  have htable : (m.beginTurn slot).heap.table mt = t := by
    change (m.heap.tables.get? mt).getD {} = t
    rw [ht, Option.getD_some]
  rw [metafield, metaEntry, hmeta]
  simp only [htable, hentry]

/-- A turn enters the finalizer if it is a function and no limit is in the way. -/
theorem turned_enters {t : Table} {mt f : Nat} (hu : m.heap.userdata? slot = some u)
    (hmt : u.metatable = some mt) (ht : m.heap.tables.get? mt = some t)
    (hentry : t.get (.string Metafield.finalizer.id) = .function f)
    (hlimit : ((m.push .nil).push .nil).atLimit = false) :
    (m.turned slot).events = .finalizing slot u.serial :: .turn slot :: m.events := by
  have hlimit : (((m.beginTurn slot).push .nil).push .nil).atLimit = false := hlimit
  unfold turned
  dsimp only
  rw [metafield_beginTurn hu hmt ht hentry]
  simp only [hlimit, Bool.false_eq_true, if_false]
  rw [note_eq, show (m.beginTurn slot).heap.userdata? slot = some u from hu]
  rfl

theorem Move.inTurn (h : Move m m') (hs : m.heap.Sound) (hr : m.Recorded)
    (hcalm : Calm slot m'.events) (hm : m.InTurn slot) : m'.InTurn slot := by
  cases h with
  | change h => exact h.inTurn hs hr hm
  | service h => exact h.inTurn hr hm
  | cycle => exact cycle_inTurn hs hcalm hm
  | shut => exact shut_inTurn hcalm hm
  | turn s hwait => exact turned_inTurn hs hwait hm
  | enter | leave | protect | unprotect => exact ⟨hm.once, hm.waits, hm.flagged, hm.orderly⟩

theorem Reachable.inTurn (hm : m.Reachable) (hcalm : Calm slot m.events) : m.InTurn slot := by
  have hall : m.heap.Sound ∧ m.Recorded ∧ (Calm slot m.events → m.InTurn slot) := by
    refine hm.induction (P := fun m => m.heap.Sound ∧ m.Recorded ∧ (Calm slot m.events → m.InTurn slot))
      (fun limits => ?_) fun h hm => ?_
    · have hcreate := reachable_create limits
      exact ⟨hcreate.heap_sound, hcreate.recorded, fun _ => ⟨Nat.zero_le _, nofun, nofun, trivial⟩⟩
    · obtain ⟨hs, hr, hm⟩ := hm
      refine ⟨h.heap_sound hs, h.recorded hs hr, fun hcalm => ?_⟩
      obtain ⟨later, hlog⟩ := h.log
      exact h.inTurn hs hr hcalm (hm (Event.Calm.of_append (hlog ▸ hcalm)))
  exact hall.2.2 hcalm

/-- In every state the finalizer of a userdata was entered once if it was entered, and before the
    machine was closed a cycle that did not reach the userdata had queued it; provided that every
    cycle that started while the userdata waited for its turn reached it. -/
theorem Reachable.finalized_once (hm : m.Reachable) (hcalm : Calm slot m.events)
    (hin : .finalizing slot serial ∈ m.events) :
    (finalized m.events).count serial = 1 ∧
    ∀ later earlier, m.events = later ++ .finalizing slot serial :: earlier →
      .closing ∉ earlier → QueuedUnreached slot serial earlier := by
  have horderly := (hm.inTurn hcalm).orderly
  refine ⟨horderly.count_eq_one hin fun s hs => hm.recorded.slot hin hs, fun later earlier h hopen => ?_⟩
  rw [h] at horderly
  exact horderly.entry.1.resolve_left hopen

/-- The heap of a new machine in which a userdata with a finalizer was made and dropped. -/
def abandonedHeap : Heap Native :=
  let h := (create {}).heap.newTable.2
  let h := (h.newFunction { body := { behaviour := .code .traceback, origin := .host }, upvalues := #[] }).2
  let h := h.modifyTable 2 fun t => t.set (.string Metafield.finalizer.id) (.function 0)
  (h.newUserdata 0).2.modifyUserdata 0 fun u => { u with metatable := some 2 }

def abandoned : Machine := { create {} with heap := abandonedHeap }

theorem abandoned_reachable : abandoned.Reachable := by
  have hstep : ∀ {h h' : Heap Native}, h.Change h' → Reachable { create {} with heap := h } →
      Reachable { create {} with heap := h' } :=
    fun {h h'} hc hm => hm.moves (.single (.change (Change.heap (m := { create {} with heap := h }) h' hc)))
  exact hstep (.userMeta 0 (some 2)) (hstep (.newUserdata 0)
    (hstep (.entry 2 (.string Metafield.finalizer.id) (.function 0))
      (hstep (.newFunction _) (hstep .newTable (reachable_create {})))))

/-- The registry and the table of globals hold nothing. -/
theorem abandoned_not_reached : ¬ abandoned.Reached ⟨.userdata, 0⟩ := by
  intro hr
  have hmem := hr.mem [⟨.table, 0⟩, ⟨.table, 1⟩] (by decide) (by decide)
  simp at hmem

theorem abandoned_due : abandoned.Due 0 :=
  ⟨_, rfl, abandoned_not_reached, rfl, by decide⟩

theorem abandoned_kept {r : Ref} (hr : r = ⟨.userdata, 0⟩ ∨ r = ⟨.table, 2⟩) : abandoned.Kept r := by
  have hdue : abandoned.heap.Reaches (fun v => ∃ slot, abandoned.Due slot ∧ v = .userdata slot)
      ⟨.userdata, 0⟩ := .start ⟨0, abandoned_due, rfl⟩ rfl
  rcases hr with rfl | rfl
  · exact .inr hdue
  · exact .inr (.step hdue (.userMeta rfl rfl) rfl)

/-- After a cycle the userdata has its turn. -/
theorem abandoned_events : (abandoned.cycle.2.2.turned 0).events =
    .finalizing 0 0 :: .turn 0 :: abandoned.cycle.2.2.events := by
  have hsame := fun r hr => contents?_cycle_of_kept abandoned_reachable.heap_sound
    (abandoned_kept (r := r) hr)
  have huserdata := hsame ⟨.userdata, 0⟩ (.inl rfl)
  have htable := hsame ⟨.table, 2⟩ (.inr rfl)
  obtain ⟨heap, events, h⟩ := abandoned.cycle_eq
  rw [h] at huserdata htable ⊢
  obtain ⟨u, hu, hcontents⟩ := Option.map_eq_some_iff.mp (huserdata : Option.map _ _ = some _)
  obtain ⟨t, ht, htcontents⟩ := Option.map_eq_some_iff.mp (htable : Option.map _ _ = some _)
  obtain rfl := (Heap.Contents.userdata.inj hcontents).1
  obtain rfl := Heap.Contents.table.inj htcontents
  exact turned_enters (f := 0) hu rfl ht rfl rfl

/-- The userdata that was dropped is finalized once. -/
theorem abandoned_finalized_once :
    (finalized (abandoned.cycle.2.2.turned 0).events).count 0 = 1 ∧
      (abandoned.cycle.2.2.turned 0).Reachable ∧
      Calm 0 (abandoned.cycle.2.2.turned 0).events ∧
      .finalizing 0 0 ∈ (abandoned.cycle.2.2.turned 0).events := by
  have hwait : 0 < abandoned.cycle.2.2.waiting 0 := by
    rw [waiting_cycle]
    exact Nat.add_pos_right _ (List.count_pos_iff.mpr (mem_cycle_queue.mpr abandoned_due))
  have hm : (abandoned.cycle.2.2.turned 0).Reachable :=
    abandoned_reachable.moves ((Relation.ReflTransGen.single (.cycle rfl)).tail (.turn 0 hwait))
  have hcalm : Calm 0 (abandoned.cycle.2.2.turned 0).events := by
    rw [abandoned_events, cycle_events]
    exact Event.calm_append_queued (fun e he => queuedEvent?_serial? he) ⟨.inl rfl, trivial⟩
  have hin : .finalizing 0 0 ∈ (abandoned.cycle.2.2.turned 0).events := by
    rw [abandoned_events]
    exact List.mem_cons_self
  exact ⟨(hm.finalized_once hcalm hin).1, hm, hcalm, hin⟩

/-- A cycle that starts while a userdata waits for its turn queues it once more, unless it reaches it
    or there is no entry for the finalizer any more. -/
theorem waiting_cycle_again (hu : m.heap.userdata? slot = some u) (hwait : 0 < m.waiting slot)
    (hflag : m.heap.isFinalized slot = false) (hreached : ¬ m.Reached ⟨.userdata, slot⟩)
    (hentry : m.heap.hasMetaEntry u Metafield.finalizer.id = true) :
    1 < m.cycle.2.2.waiting slot := by
  have hslot : slot ∈ m.cycle.1 := mem_cycle_queue.mpr ⟨u, hu, hreached, hflag, hentry⟩
  rw [waiting_cycle]
  have := List.count_pos_iff.mpr hslot
  omega

end Machine

end ScriptHost
