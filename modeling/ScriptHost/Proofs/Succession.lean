import Mathlib.Data.List.Induction
import ScriptHost.Proofs.Armed

/-! # The order of the finalizers of one collection

A collection, that is a cycle or the closing of the machine, fills its queue in the order of the
slots and gives the turns from the end of it. Code that runs at a turn may collect in its turn; it
works off what it has queued before the outer collection goes on. So the entries that wait form a
stack, and the turns of one collection come in the order of its queue whatever happens in between.

The order of the slots is that of creation as long as no slot was used again. A new userdata in a slot
that an earlier collection freed has its turn by its slot, after older ones in higher slots.
-/

namespace ScriptHost

namespace Event

/-- A place in the queue of a collection. Cycles and the closing are numbered together. -/
structure Entry where
  collection : Nat
  slot : Nat
  serial : Nat
  deriving DecidableEq

/-- The number of cycles and closings in a log. -/
def collections : List Event → Nat
  | [] => 0
  | .cycle _ :: earlier => collections earlier + 1
  | .closing :: earlier => collections earlier + 1
  | _ :: earlier => collections earlier

/-- What a collection queued, the last entry first. -/
def queue (c : Nat) : List Event → List Entry
  | [] => []
  | .queued slot serial :: earlier =>
      if collections earlier = c then ⟨c, slot, serial⟩ :: queue c earlier else queue c earlier
  | _ :: earlier => queue c earlier

/-- The entries that wait for their turn, the next one first. -/
def entries : List Event → List Entry
  | [] => []
  | .queued slot serial :: earlier => ⟨collections earlier, slot, serial⟩ :: entries earlier
  | .turn _ :: earlier => (entries earlier).tail
  | _ :: earlier => entries earlier

/-- The entry whose turn began last. -/
def current? : List Event → Option Entry
  | [] => none
  | .turn _ :: earlier => (entries earlier).head?
  | _ :: earlier => current? earlier

/-- The entries of a collection whose finalizers were entered at their turns, the last one first. -/
def invoked (c : Nat) : List Event → List Entry
  | [] => []
  | .finalizing slot serial :: earlier =>
      if current? earlier = some ⟨c, slot, serial⟩ then ⟨c, slot, serial⟩ :: invoked c earlier
      else invoked c earlier
  | _ :: earlier => invoked c earlier

/-- An event that changes no queue and enters no finalizer. -/
def idle : Event → Bool
  | .queued _ _ | .turn _ | .finalizing _ _ => false
  | _ => true

/-- Logs in which a collection fills its queue upwards before it gives turns, and a turn is that of the
    entry that was queued last. -/
inductive Paced : List Event → Prop where
  | nil : Paced []
  | idle {event log} : event.idle = true → Paced log → Paced (event :: log)
  | queued {slot log} (serial) : (∀ e ∈ queue (collections log) log, e.slot < slot) →
      invoked (collections log) log = [] → Paced log → Paced (.queued slot serial :: log)
  | turn {e rest log} : entries log = e :: rest → Paced log → Paced (.turn e.slot :: log)
  | entered {e rest log} (serial) : entries log = e :: rest → Paced log →
      Paced (.finalizing e.slot serial :: .turn e.slot :: log)

variable {log : List Event} {event : Event} {e : Entry} {c : Nat}

/-! ## Logs and their queues -/

theorem entries_idle (h : event.idle = true) : entries (event :: log) = entries log := by
  cases event <;> first | rfl | cases h

theorem queue_idle (h : event.idle = true) : queue c (event :: log) = queue c log := by
  cases event <;> first | rfl | cases h

theorem invoked_idle (h : event.idle = true) : invoked c (event :: log) = invoked c log := by
  cases event <;> first | rfl | cases h

theorem collections_le_cons : collections log ≤ collections (event :: log) := by
  cases event <;> first | exact Nat.le_refl _ | exact Nat.le_succ _

theorem collection_le (h : e ∈ entries log) : e.collection ≤ collections log := by
  induction log with
  | nil => cases h
  | cons event log ih =>
      cases event with
      | queued slot serial =>
          rcases List.mem_cons.mp h with rfl | h
          · exact Nat.le_refl _
          · exact ih h
      | turn slot => exact ih (List.mem_of_mem_tail h)
      | cycle | closing | finalizing | constructed | handling | handled =>
          exact Nat.le_trans (ih h) collections_le_cons

theorem current?_le (h : current? log = some e) : e.collection ≤ collections log := by
  induction log with
  | nil => cases h
  | cons event log ih =>
      cases event with
      | turn slot =>
          have hle : e.collection ≤ collections log := collection_le (List.mem_of_head? h)
          exact hle
      | cycle | closing | queued | finalizing | constructed | handling | handled =>
          exact Nat.le_trans (ih h) collections_le_cons

/-- A collection that has not started has queued nothing. -/
theorem queue_eq_nil (h : collections log < c) : queue c log = [] := by
  induction log with
  | nil => rfl
  | cons event log ih =>
      have hlog := Nat.lt_of_le_of_lt collections_le_cons h
      cases event with
      | queued slot serial =>
          rw [queue, if_neg (Nat.ne_of_lt hlog)]
          exact ih hlog
      | cycle | closing | turn | finalizing | constructed | handling | handled => exact ih hlog

theorem invoked_eq_nil (h : collections log < c) : invoked c log = [] := by
  induction log with
  | nil => rfl
  | cons event log ih =>
      have hlog := Nat.lt_of_le_of_lt collections_le_cons h
      cases event with
      | finalizing slot serial =>
          have hother : current? log ≠ some ⟨c, slot, serial⟩ :=
            fun hcurrent => Nat.not_le_of_lt hlog (current?_le hcurrent)
          rw [invoked, if_neg hother]
          exact ih hlog
      | cycle | closing | queued | turn | constructed | handling | handled => exact ih hlog

/-- What a collection queued is in the log. -/
theorem mem_queue (h : e ∈ queue c log) : .queued e.slot e.serial ∈ log := by
  induction log with
  | nil => cases h
  | cons event log ih =>
      cases event with
      | queued slot serial =>
          rw [queue] at h
          split at h
          · rcases List.mem_cons.mp h with rfl | h
            · exact List.mem_cons_self
            · exact List.mem_cons_of_mem _ (ih h)
          · exact List.mem_cons_of_mem _ (ih h)
      | cycle | closing | turn | finalizing | constructed | handling | handled =>
          exact List.mem_cons_of_mem _ (ih h)

/-- The entries of a collection that had their turn and entered a finalizer, and after them those that
    wait, come in the order of the queue. -/
theorem Paced.ordered (h : Paced log) (c : Nat) :
    (queue c log).Pairwise (fun last first => first.slot < last.slot) ∧
      ((invoked c log).reverse ++ (entries log).filter (·.collection = c)).Sublist (queue c log) := by
  have hturn : ∀ {e rest log}, entries log = e :: rest →
      (rest.filter (·.collection = c)).Sublist ((entries log).filter (·.collection = c)) := by
    intro e rest log hentries
    rw [hentries]
    exact (List.sublist_cons_self e rest).filter _
  induction h with
  | nil => exact ⟨.nil, .slnil⟩
  | idle hidle _ ih =>
      rw [queue_idle hidle, invoked_idle hidle, entries_idle hidle]
      exact ih
  | @queued slot log serial hslots hnone _ ih =>
      obtain ⟨hsorted, hsub⟩ := ih
      by_cases hc : collections log = c
      · -- The queue that is being filled: no turn was given yet.
        subst hc
        rw [hnone] at hsub
        simp only [queue, invoked, entries, if_true, hnone, decide_true, List.filter_cons_of_pos]
        exact ⟨List.pairwise_cons.mpr ⟨hslots, hsorted⟩, hsub.cons_cons _⟩
      · simp only [queue, invoked, entries, if_neg hc]
        rw [List.filter_cons_of_neg (by simpa using hc)]
        exact ⟨hsorted, hsub⟩
  | turn hentries _ ih =>
      simp only [queue, invoked, entries]
      rw [hentries, List.tail_cons]
      exact ⟨ih.1, ((hturn hentries).append_left _).trans ih.2⟩
  | @entered e rest log serial hentries _ ih =>
      have hcurrent : current? (.turn e.slot :: log) = some e := by
        simp [current?, hentries]
      simp only [queue, invoked, entries, hcurrent]
      rw [hentries, List.tail_cons]
      refine ⟨ih.1, ?_⟩
      split
      · -- The entry moves from the front of those that wait to the end of those that were invoked.
        rename_i heq
        obtain ⟨collection, slot, number⟩ := e
        cases heq
        have hsub := ih.2
        rw [hentries, List.filter_cons_of_pos (by simp)] at hsub
        simpa using hsub
      · exact ((hturn hentries).append_left _).trans ih.2

/-! ## Filling a queue -/

/-- A collection has started after some log and has given no turn yet. -/
structure Filling (c : Nat) (before log : List Event) : Prop where
  paced : Paced log
  started : collections log = c
  untouched : invoked c log = []
  waiting : entries log = queue c log ++ entries before

variable {before : List Event} {slot : Nat}

/-- A cycle or the closing starts with an empty queue. -/
theorem filling_start (h : Paced log) (event : Event) (hidle : event.idle = true)
    (hstart : collections (event :: log) = collections log + 1) :
    Filling (collections log + 1) log (event :: log) ∧
      queue (collections log + 1) (event :: log) = [] := by
  have hqueue : queue (collections log + 1) (event :: log) = [] := by
    rw [queue_idle hidle]
    exact queue_eq_nil (Nat.lt_succ_self _)
  refine ⟨⟨.idle hidle h, hstart, ?_, ?_⟩, hqueue⟩
  · rw [invoked_idle hidle]
    exact invoked_eq_nil (Nat.lt_succ_self _)
  · rw [hqueue, entries_idle hidle, List.nil_append]

/-- A slot above those that were queued before is queued. -/
theorem Filling.queued (h : Filling c before log) (hslots : ∀ e ∈ queue c log, e.slot < slot)
    (serial : Nat) : Filling c before (.queued slot serial :: log) ∧
      queue c (.queued slot serial :: log) = ⟨c, slot, serial⟩ :: queue c log := by
  obtain ⟨hpaced, rfl, huntouched, hwaiting⟩ := h
  have hqueue : queue (collections log) (.queued slot serial :: log) =
      ⟨collections log, slot, serial⟩ :: queue (collections log) log := by
    rw [queue, if_pos rfl]
  refine ⟨⟨.queued serial hslots huntouched hpaced, rfl, huntouched, ?_⟩, hqueue⟩
  rw [hqueue, entries, hwaiting, List.cons_append]

/-- What a collection queues lies on top of what waited before, and is gone when all of it has had its
    turn. -/
theorem Filling.workedOff {log' : List Event} {slots : List Nat} (h : Filling c before log)
    (hqueue : (queue c log).map (·.slot) = slots)
    (hturns : (entries log).map (·.slot) = slots ++ (entries before).map (·.slot) → Paced log →
      Paced log' ∧ entries log' = (entries log).drop slots.length) :
    Paced log' ∧ entries log' = entries before := by
  have hwaiting : (entries log).map (·.slot) = slots ++ (entries before).map (·.slot) := by
    rw [h.waiting, List.map_append, hqueue]
  have hlength : slots.length = (queue c log).length := by rw [← hqueue, List.length_map]
  obtain ⟨hpaced, hentries⟩ := hturns hwaiting h.paced
  refine ⟨hpaced, ?_⟩
  rw [hentries, h.waiting, hlength, List.drop_left]

end Event

namespace Machine

open Event

variable {m m' : Machine} {before log : List Event} {c slot : Nat} {slots q : List Nat}
  {h : Heap Native}

/-- The slots of a collection are queued in order. -/
theorem filling_queued (hlog : Filling c before log) (hempty : queue c log = [])
    (hsorted : slots.Pairwise (· < ·)) (hslots : ∀ s ∈ slots, h.userdata? s ≠ none) :
    Filling c before ((slots.filterMap (queuedEvent? h)).reverse ++ log) ∧
      (queue c ((slots.filterMap (queuedEvent? h)).reverse ++ log)).map (·.slot) =
        slots.reverse := by
  induction slots using List.reverseRecOn with
  | nil => exact ⟨hlog, congrArg (List.map (·.slot)) hempty⟩
  | append_singleton slots slot ih =>
      obtain ⟨hsorted, -, hlast⟩ := List.pairwise_append.mp hsorted
      obtain ⟨hfilling, hqueue⟩ := ih hsorted fun s hs => hslots s (List.mem_append_left _ hs)
      obtain ⟨u, hu⟩ := Option.ne_none_iff_exists'.mp (hslots slot (by simp))
      have hevent : queuedEvent? h slot = some (.queued slot u.serial) := by simp [queuedEvent?, hu]
      have hlog : ((slots ++ [slot]).filterMap (queuedEvent? h)).reverse ++ log =
          .queued slot u.serial :: ((slots.filterMap (queuedEvent? h)).reverse ++ log) := by
        simp [hevent]
      have habove : ∀ e ∈ queue c ((slots.filterMap (queuedEvent? h)).reverse ++ log),
          e.slot < slot := by
        intro e he
        have hmem := List.mem_map_of_mem (f := (·.slot)) he
        rw [hqueue, List.mem_reverse] at hmem
        exact hlast _ hmem _ (List.mem_singleton_self _)
      obtain ⟨hfilling, hhead⟩ := hfilling.queued habove u.serial
      rw [hlog, hhead, List.map_cons, hqueue]
      exact ⟨hfilling, by simp⟩

/-! ## Runs -/

theorem cycle_filling (hm : Paced m.events) : ∃ c, Filling c m.events m.cycle.2.2.events ∧
    (queue c m.cycle.2.2.events).map (·.slot) = m.cycle.1.reverse := by
  obtain ⟨hfilling, hempty⟩ := filling_start hm (.cycle m.Reached) rfl rfl
  rw [cycle_events]
  refine ⟨_, filling_queued hfilling hempty cycle_queue_sorted fun s hs => ?_⟩
  obtain ⟨u, hu, -⟩ := mem_cycle_queue.mp hs
  simp [hu]

theorem shut_filling (hm : Paced m.events) : ∃ c, Filling c m.events m.shut.2.events ∧
    (queue c m.shut.2.events).map (·.slot) = m.shut.1.reverse := by
  obtain ⟨hfilling, hempty⟩ := filling_start hm .closing rfl rfl
  rw [shut_events]
  refine ⟨_, filling_queued hfilling hempty Heap.finalizable_sorted fun s hs => ?_⟩
  obtain ⟨u, hu, -⟩ := Heap.mem_finalizable.mp hs
  rw [show m.heap.userdata? s = some u from hu]
  exact Option.some_ne_none u

theorem Change.paced (h : Change m m') (hm : Paced m.events) :
    Paced m'.events ∧ entries m'.events = entries m.events := by
  obtain ⟨later, hevents, hlater⟩ := h.log
  rw [hevents]
  clear hevents
  induction later with
  | nil => exact ⟨hm, rfl⟩
  | cons event later ih =>
      obtain ⟨serial, rfl⟩ := hlater event List.mem_cons_self
      obtain ⟨hpaced, hentries⟩ := ih fun e he => hlater e (List.mem_cons_of_mem _ he)
      exact ⟨.idle rfl hpaced, hentries⟩

theorem turned_paced {e : Entry} {waiting : List Entry} (hm : Paced m.events)
    (he : entries m.events = e :: waiting) :
    Paced (m.turned e.slot).events ∧ entries (m.turned e.slot).events = waiting := by
  have htail : (entries m.events).tail = waiting := by rw [he, List.tail_cons]
  rcases turned_events m e.slot with h | ⟨u, -, h⟩ <;> rw [h]
  · exact ⟨.turn he hm, htail⟩
  · exact ⟨.entered u.serial he hm, htail⟩

/-- A run gives turns to the entries on top of those that wait, in their order, and whatever it queues
    has had its turn when it is done. -/
theorem Runs.paced (h : Runs q m m') (rest : List Nat)
    (hq : (entries m.events).map (·.slot) = q ++ rest)
    (hm : Paced m.events) :
    Paced m'.events ∧ entries m'.events = (entries m.events).drop q.length := by
  induction h generalizing rest with
  | refl => exact ⟨hm, rfl⟩
  | @trans p q m m' m'' _ _ ih ih' =>
      rw [List.append_assoc] at hq
      obtain ⟨hpaced, hentries⟩ := ih _ hq hm
      have hq' : (entries m'.events).map (·.slot) = q ++ rest := by
        rw [hentries, List.map_drop, hq, List.drop_left]
      obtain ⟨hpaced', hentries'⟩ := ih' rest hq' hpaced
      refine ⟨hpaced', ?_⟩
      rw [hentries', hentries, List.drop_drop, List.length_append]
  | change h => exact h.paced hm
  | forget =>
      rw [forgetDecoration_eq]
      exact ⟨hm, rfl⟩
  | call f _ _ _ ih => exact ih rest hq hm
  | protect handler _ ih => exact ih rest hq hm
  | @handle m m' handler raised answer hheeds _ hbase ih =>
      have hbegun : (m.beginHandling handler raised).events =
          .handling m.guards.length handler raised :: m.events := by
        rw [beginHandling_eq]
      obtain ⟨hpaced, hentries⟩ := ih rest (by rw [hbegun]; exact hq)
        (by rw [hbegun]; exact .idle rfl hm)
      rw [endHandling_events]
      refine ⟨.idle rfl hpaced, ?_⟩
      change entries m'.events = _
      rw [hentries, hbegun]
      rfl
  | @collect m m' hopen _ ih =>
      obtain ⟨c, hfilling, hqueue⟩ := cycle_filling hm
      exact hfilling.workedOff hqueue (ih _)
  | @close m m' hopen _ ih =>
      obtain ⟨c, hfilling, hqueue⟩ := shut_filling hm
      exact hfilling.workedOff hqueue (ih _)
  | @turn m m' slot _ ih =>
      obtain ⟨e, waiting, hwaiting, rfl, hrest⟩ := List.map_eq_cons_iff.mp hq
      obtain ⟨hpaced, hentries⟩ := turned_paced hm hwaiting
      obtain ⟨hpaced', hentries'⟩ := ih rest (by
        rw [show ((m.turned e.slot).pushGuard {}).events = (m.turned e.slot).events from rfl,
          hentries, hrest]
        rfl) hpaced
      refine ⟨hpaced', ?_⟩
      change entries m'.events = _
      rw [hentries', hwaiting]
      exact hentries

end Machine

/-! ## Slots that are used once -/

namespace Heap

variable {β : Type} {h h' : Heap β}

/-- What a step does to the number of userdata that were made and to that of their slots. -/
inductive Spread (h h' : Heap β) : Prop where
  | same : h'.nextSerial = h.nextSerial →
      h'.userdata.slots.size = h.userdata.slots.size → Spread h h'
  /-- A new userdata takes a slot that was emptied. -/
  | reused : h'.nextSerial = h.nextSerial + 1 →
      h'.userdata.slots.size = h.userdata.slots.size → Spread h h'
  /-- A new userdata takes a new slot. -/
  | grown : h'.nextSerial = h.nextSerial + 1 →
      h'.userdata.slots.size = h.userdata.slots.size + 1 →
      (∀ slot u, h'.userdata? slot = some u → u.serial = h.nextSerial →
        slot = h.userdata.slots.size) → Spread h h'

theorem Change.spread (hc : Change h h') (hs : h.Sound) : Spread h h' := by
  cases hc with
  | newUserdata size =>
      have hplace : ∀ slot u, (h.newUserdata size).2.userdata? slot = some u →
          u.serial = h.nextSerial → slot = (h.newUserdata size).1 := by
        intro slot u hu hserial
        rw [newUserdata_userdata? _ _ hs] at hu
        split at hu
        · assumption
        · exact absurd (hs.serial_lt hu) (by omega)
      have hinsert : (h.newUserdata size).2.userdata = (h.userdata.insert
          { serial := h.nextSerial, address := h.memory.frontier, size }).2 := rfl
      cases hfree : h.userdata.free with
      | nil =>
          have hslot : (h.newUserdata size).1 = h.userdata.slots.size := by
            simp [Heap.newUserdata, Arena.insert, hfree]
          refine .grown rfl ?_ fun slot u hu hserial => (hplace slot u hu hserial).trans hslot
          rw [hinsert, Arena.insert, hfree]
          exact Array.size_push _
      | cons first free =>
          refine .reused rfl ?_
          rw [hinsert, Arena.insert, hfree]
          exact Array.size_setIfInBounds
  | userMeta | userValue => exact .same rfl Array.size_modify
  | newTable | newFunction | newBoxed | entry | tableMeta | upvalue | allocate | write =>
      exact .same rfl rfl

end Heap

namespace Machine

open Event

variable {m m' : Machine} {s n : Nat}

theorem cycle_slots : m.cycle.2.2.heap.userdata.slots.size = m.heap.userdata.slots.size := by
  obtain ⟨marking, hmarked⟩ := m.marked_eq
  rw [cycle_heap, hmarked]
  exact Array.size_mapIdx

theorem Move.spread (h : Move m m') (hs : m.heap.Sound) : m.heap.Spread m'.heap := by
  cases h with
  | change h =>
      cases h with
      | heap h hc => exact hc.spread hs
      | native code f => exact (Heap.Change.newFunction f).spread hs
      | constructed => rw [heap_note]; exact .same rfl rfl
      | stack | intern | host | cache => exact .same rfl rfl
  | service h => rw [h.heap]; exact .same rfl rfl
  | cycle => exact .same nextSerial_cycle cycle_slots
  | shut => rw [shut_heap]; exact .same rfl rfl
  | turn slot =>
      obtain ⟨events, heq⟩ := turned_eq m slot
      rw [heq]
      exact .same rfl rfl
  | enter | leave | protect | unprotect => exact .same rfl rfl

/-- What a collection queues is a userdata that is there. -/
theorem of_mem_queued {h : Heap Native} {slots : List Nat}
    (hin : .queued s n ∈ (slots.filterMap (queuedEvent? h)).reverse) :
    ∃ u, h.userdata? s = some u ∧ u.serial = n := by
  rw [List.mem_reverse, List.mem_filterMap] at hin
  obtain ⟨slot, -, hevent⟩ := hin
  obtain ⟨u, hu, heq⟩ := Option.map_eq_some_iff.mp hevent
  cases heq
  exact ⟨u, hu, rfl⟩

theorem Move.queued (h : Move m m') (hin : .queued s n ∈ m'.events) :
    .queued s n ∈ m.events ∨ ∃ u, m.heap.userdata? s = some u ∧ u.serial = n := by
  cases h with
  | change h =>
      obtain ⟨later, hevents, hlater⟩ := h.log
      rw [hevents, List.mem_append] at hin
      refine .inl (hin.resolve_left fun hin => ?_)
      obtain ⟨serial, heq⟩ := hlater _ hin
      cases heq
  | service h =>
      cases h with
      | forgotten => rw [forgetDecoration_eq] at hin; exact .inl hin
      | begun => rw [beginHandling_eq] at hin; exact .inl (by simpa using hin)
      | ended => rw [endHandling_events] at hin; exact .inl (by simpa using hin)
  | cycle =>
      rw [cycle_events, List.mem_append, List.mem_cons] at hin
      rcases hin with hin | hin | hin
      · exact .inr (of_mem_queued hin)
      · cases hin
      · exact .inl hin
  | shut =>
      rw [shut_events, List.mem_append, List.mem_cons] at hin
      rcases hin with hin | hin | hin
      · exact .inr (of_mem_queued hin)
      · cases hin
      · exact .inl hin
  | turn slot =>
      rcases turned_events m slot with h | ⟨u, -, h⟩ <;> rw [h] at hin <;>
        exact .inl (by simpa using hin)
  | enter | leave | protect | unprotect => exact .inl hin

/-- Each userdata has the slot of its serial, also those that were queued at some time. -/
structure FirstUse (m : Machine) : Prop where
  placed : ∀ {slot u}, m.heap.userdata? slot = some u → u.serial = slot
  queued : ∀ {s n}, .queued s n ∈ m.events → n = s

theorem Move.firstUse (h : Move m m') (hm : m.FirstUse)
    (hplace : ∀ slot u, m'.heap.userdata? slot = some u → u.serial = m.heap.nextSerial →
      m.heap.nextSerial = slot) (hs : m.heap.Sound) : m'.FirstUse := by
  refine ⟨fun {slot u} hu => ?_, fun {s n} hin => ?_⟩
  · rcases h.inherited hs hu with ⟨old, hold, hserial⟩ | hfresh
    · exact hserial.symm.trans (hm.placed hold)
    · exact hfresh.trans (hplace slot u hu hfresh)
  · rcases h.queued hin with hin | ⟨u, hu, rfl⟩
    · exact hm.queued hin
    · exact hm.placed hu

/-- There are no more slots than userdata were made; if there are as many, no slot was used twice. -/
theorem Reachable.firstUse (hm : m.Reachable) :
    m.heap.userdata.slots.size ≤ m.heap.nextSerial ∧
      (m.heap.nextSerial = m.heap.userdata.slots.size → m.FirstUse) := by
  have hboth : m.heap.Sound ∧ m.heap.userdata.slots.size ≤ m.heap.nextSerial ∧
      (m.heap.nextSerial = m.heap.userdata.slots.size → m.FirstUse) := by
    refine hm.induction (P := fun m => m.heap.Sound ∧
      m.heap.userdata.slots.size ≤ m.heap.nextSerial ∧
      (m.heap.nextSerial = m.heap.userdata.slots.size → m.FirstUse)) (fun limits => ?_)
      fun {m m'} h hm => ?_
    · exact ⟨(reachable_create limits).heap_sound, Nat.le_refl _, fun _ => ⟨nofun, nofun⟩⟩
    · obtain ⟨hs, hle, hfirst⟩ := hm
      have hs' := h.heap_sound hs
      refine ⟨hs', ?_⟩
      cases h.spread hs with
      | same hserial hsize =>
          refine ⟨by omega, fun heq => h.firstUse (hfirst (by omega)) (fun slot u hu hfresh => ?_) hs⟩
          have hlt := hs'.serial_lt hu
          omega
      | reused hserial hsize => exact ⟨by omega, fun heq => by omega⟩
      | grown hserial hsize hplace =>
          refine ⟨by omega, fun heq => h.firstUse (hfirst (by omega)) (fun slot u hu hfresh => ?_) hs⟩
          have hslot := hplace slot u hu hfresh
          omega
  exact hboth.2

/-! ## The order of creation -/

/-- When a run is over, everything that was queued has had its turn. A collection queues userdata by
    slot, and their finalizers are entered from the end of the queue on, each once for its entry.
    That is the reverse order of creation if the queue is in the order of creation, and it is if no
    slot of a freed userdata was used again. -/
theorem Runs.finalizers_in_order {limits : Limits} (h : Runs [] (create limits) m) :
    entries m.events = [] ∧ ∀ c,
      (queue c m.events).Pairwise (fun last first => first.slot < last.slot) ∧
      (invoked c m.events).reverse.Sublist (queue c m.events) ∧
      ((queue c m.events).Pairwise (fun last first => first.serial < last.serial) →
        (invoked c m.events).Pairwise fun later earlier => later.serial < earlier.serial) ∧
      (m.heap.nextSerial = m.heap.userdata.slots.size →
        (invoked c m.events).Pairwise fun later earlier => later.serial < earlier.serial) := by
  obtain ⟨hpaced, hentries⟩ := h.paced [] rfl Paced.nil
  have hnone : entries m.events = [] := hentries
  refine ⟨hnone, fun c => ?_⟩
  obtain ⟨hslots, hsub⟩ := hpaced.ordered c
  rw [hnone, List.filter_nil, List.append_nil] at hsub
  have hcreated : (queue c m.events).Pairwise (fun last first => first.serial < last.serial) →
      (invoked c m.events).Pairwise fun later earlier => later.serial < earlier.serial :=
    fun hqueue => List.pairwise_reverse.mp (hqueue.sublist hsub)
  refine ⟨hslots, hsub, hcreated, fun hfirst => hcreated ?_⟩
  have huse := ((reachable_create limits).runs h).firstUse.2 hfirst
  refine hslots.imp_of_mem fun {last first} hlast hearlier hlt => ?_
  rw [huse.queued (mem_queue hlast), huse.queued (mem_queue hearlier)]
  exact hlt

/-- A new machine in which two userdata with a finalizer were made and dropped. -/
def deserted : Machine :=
  { create {} with
    heap := (abandonedHeap.newUserdata 0).2.modifyUserdata 1 fun u => { u with metatable := some 2 } }

/-- A change of the heap only. -/
theorem Runs.then_heap {h h' : Heap Native} (hc : h.Change h')
    (hrun : Runs [] m' { m with heap := h }) : Runs [] m' { m with heap := h' } :=
  hrun.trans_nil (.change (Change.heap (m := { m with heap := h }) h' hc))

theorem abandoned_runs : Runs [] (create {}) abandoned :=
  .then_heap (.userMeta 0 (some 2)) (.then_heap (.newUserdata 0)
    (.then_heap (.entry 2 (.string Metafield.finalizer.id) (.function 0))
      (.then_heap (.newFunction _) (.then_heap .newTable (.refl (create {}))))))

theorem deserted_runs : Runs [] (create {}) deserted :=
  .then_heap (.userMeta 1 (some 2)) (.then_heap (.newUserdata 0) abandoned_runs)

/-- The closing of the machine with a turn for each userdata. -/
def desertedClosed : Machine :=
  let m := ((deserted.shut.2.turned 1).pushGuard {}).popGuard
  ((m.turned 0).pushGuard {}).popGuard

theorem desertedClosed_runs : Runs [] (create {}) desertedClosed := by
  have hqueue : deserted.shut.1 = [0, 1] := by decide
  have hturns : Runs [1, 0] deserted.shut.2 desertedClosed :=
    Runs.trans (p := [1]) (.turn (.refl _)) (.turn (.refl _))
  exact deserted_runs.trans_nil (.close rfl (by rw [hqueue]; exact hturns))

/-- The userdata that was made last is finalized first. -/
theorem desertedClosed_in_order :
    Runs [] (create {}) desertedClosed ∧
      desertedClosed.heap.nextSerial = desertedClosed.heap.userdata.slots.size ∧
      invoked 1 desertedClosed.events = [⟨1, 0, 0⟩, ⟨1, 1, 1⟩] ∧
      (invoked 1 desertedClosed.events).Pairwise
        fun later earlier => later.serial < earlier.serial := by
  have hfirst : desertedClosed.heap.nextSerial = desertedClosed.heap.userdata.slots.size := by decide
  have hinvoked : invoked 1 desertedClosed.events = [⟨1, 0, 0⟩, ⟨1, 1, 1⟩] := by decide
  exact ⟨desertedClosed_runs, hfirst, hinvoked,
    (desertedClosed_runs.finalizers_in_order.2 1).2.2.2 hfirst⟩

/-! ## A slot that is used again -/

/-- A turn of an armed userdata in which the finalizer does nothing, if there is room for it. -/
theorem Armed.turn {slot serial : Nat} (h : m.Armed slot serial) (hroom : m.HasRoom) :
    Runs [slot] m { m with
      heap := m.heap.setFinalized slot
      events := .finalizing slot serial :: .turn slot :: m.events } := by
  obtain ⟨hu, rfl, hmt, ht, hf, -⟩ := h
  have hevents := turned_enters hu hmt ht hf hroom
  obtain ⟨events, heq⟩ := turned_eq m slot
  have hturn : Runs [slot] m ((m.turned slot).pushGuard {}).popGuard := .turn (.refl _)
  rw [heq] at hevents hturn
  rw [← show events = _ from hevents]
  exact hturn

/-- Two such turns. -/
theorem Armed.turns {slot serial s n : Nat} (h : m.Armed slot serial) (h' : m.Armed s n)
    (hroom : m.HasRoom) : ∃ m', Runs [slot, s] m m' ∧
      m'.events = .finalizing s n :: .turn s :: .finalizing slot serial :: .turn slot :: m.events := by
  have hfirst := h.turn hroom
  generalize hm' : { m with
    heap := m.heap.setFinalized slot
    events := .finalizing slot serial :: .turn slot :: m.events } = m' at hfirst
  have harmed : m'.Armed s n := by
    subst hm'
    exact h'.of_eq rfl rfl rfl
  have hroom' : m'.HasRoom := by
    subst hm'
    exact hroom
  have hevents : m'.events = .finalizing slot serial :: .turn slot :: m.events := by rw [← hm']
  refine ⟨_, hfirst.trans (harmed.turn hroom'), ?_⟩
  rw [← hevents]

/-- A new machine with a userdata that was dropped and a newer one with a finalizer on its stack. -/
def leftover : Machine :=
  { create {} with
    heap := ((abandonedHeap.modifyUserdata 0 fun u => { u with metatable := none }).newUserdata 0).2
      |>.modifyUserdata 1 fun u => { u with metatable := some 2 }
    stack := #[.userdata 1] }

theorem leftover_runs : Runs [] (create {}) leftover := by
  have hheap : Runs [] (create {}) { create {} with heap := leftover.heap } :=
    .then_heap (.userMeta 1 (some 2)) (.then_heap (.newUserdata 0)
      (.then_heap (.userMeta 0 none) abandoned_runs))
  exact hheap.trans_nil (.change (Change.stack #[.userdata 1] (by decide) (by decide)))

theorem leftover_armed : leftover.Armed 1 1 := .intro rfl rfl rfl rfl rfl rfl

theorem leftover_reached : leftover.Reached ⟨.userdata, 1⟩ :=
  .start (.stack (v := .userdata 1) (by simp [leftover])) rfl

theorem leftover_not_reached : ¬ leftover.Reached ⟨.userdata, 0⟩ := by
  intro hr
  have hmem := hr.mem [⟨.userdata, 1⟩, ⟨.table, 2⟩, ⟨.function, 0⟩, ⟨.table, 0⟩, ⟨.table, 1⟩]
    (by decide) (by decide)
  simp at hmem

theorem leftover_not_due {slot : Nat} : ¬ leftover.Due slot := by
  rintro ⟨u, hu, hreached, -, hentry⟩
  have hslots : slot < 2 := Arena.lt_size hu
  obtain rfl | rfl : slot = 0 ∨ slot = 1 := by omega
  · cases hu
    exact absurd hentry (by decide)
  · exact hreached leftover_reached

/-- A cycle finds nothing due, and frees the older userdata only. -/
theorem leftover_cycle : leftover.cycle.1 = [] ∧ leftover.cycle.2.2.heap.userdata? 0 = none := by
  have hnone : ∀ {r}, ¬ leftover.heap.Reaches
      (fun v => ∃ slot, leftover.Due slot ∧ v = .userdata slot) r := by
    intro r hr
    induction hr with
    | start hv =>
        obtain ⟨slot, hdue, -⟩ := hv
        exact leftover_not_due hdue
    | step _ _ _ ih => exact ih
  have hkept : ¬ leftover.Kept ⟨.userdata, 0⟩ := fun hkept => hkept.elim leftover_not_reached hnone
  have hs := ((reachable_create {}).runs leftover_runs).heap_sound
  refine ⟨List.eq_nil_iff_forall_not_mem.mpr fun slot hslot => ?_, ?_⟩
  · exact leftover_not_due (mem_cycle_queue.mp hslot)
  · exact Option.map_eq_none_iff.mp (contents?_cycle_of_not_kept hs hkept)

/-- The state after a cycle and a third userdata, which has a finalizer too, with nothing on the
    stack. -/
def refilled (mt : Nat) : Machine :=
  let m := leftover.cycle.2.2
  { m with
    heap := (m.heap.newUserdata 0).2.modifyUserdata 0 fun u => { u with metatable := some mt }
    stack := #[] }

/-- The third userdata has the slot of the one that was freed. -/
theorem refilled_userdata (mt : Nat) : ∃ address,
    (refilled mt).heap.userdata? 0 =
      some { serial := 2, address, size := 0, metatable := some mt } ∧
    ∀ slot, slot ≠ 0 →
      (refilled mt).heap.userdata? slot = leftover.cycle.2.2.heap.userdata? slot := by
  have hm := (reachable_create {}).runs leftover_runs
  have hs := cycle_sound hm.heap_sound
  obtain ⟨u, hu, -⟩ := hasMetaEntry_of_armed (armed_cycle hm.heap_sound leftover_armed rfl)
  have hsize : leftover.cycle.2.2.heap.userdata.slots.size = 2 := cycle_slots.trans rfl
  have hserial : leftover.cycle.2.2.heap.nextSerial = 2 := nextSerial_cycle.trans rfl
  have hslot : (leftover.cycle.2.2.heap.newUserdata 0).1 = 0 := by
    have hfree := hs.userdata.mem_free.mpr ⟨hsize ▸ Nat.two_pos, leftover_cycle.2⟩
    have hin : (leftover.cycle.2.2.heap.newUserdata 0).1 ∈ leftover.cycle.2.2.heap.userdata.free :=
      Arena.insert_slot_mem hfree
    obtain ⟨hlt, hnone⟩ := hs.userdata.mem_free.mp hin
    have hne : (leftover.cycle.2.2.heap.newUserdata 0).1 ≠ 1 := by
      intro heq
      rw [heq] at hnone
      exact Option.some_ne_none u (hu.symm.trans hnone)
    omega
  have hget := fun slot => Heap.newUserdata_userdata? 0 slot hs
  simp only [hslot, hserial] at hget
  have hmodify : ∀ slot, (refilled mt).heap.userdata? slot =
      if slot = 0 then ((leftover.cycle.2.2.heap.newUserdata 0).2.userdata? slot).map
        fun u => { u with metatable := some mt }
      else (leftover.cycle.2.2.heap.newUserdata 0).2.userdata? slot :=
    fun _ => Arena.get?_modify
  refine ⟨leftover.cycle.2.2.heap.memory.frontier, ?_, fun slot hne => ?_⟩
  · rw [hmodify, if_pos rfl, hget, if_pos rfl]
    rfl
  · rw [hmodify, if_neg hne, hget, if_neg hne]

/-- Both userdata are armed, and the closing of the machine queues the newer one first. -/
theorem refilled_armed : ∃ mt, (refilled mt).Armed 0 2 ∧ (refilled mt).Armed 1 1 ∧
    (refilled mt).shut.1 = [0, 1] := by
  have hm := (reachable_create {}).runs leftover_runs
  obtain @⟨u, mt, t, f, c, hu, hserial, hmt, ht, hf, hc⟩ :=
    armed_cycle hm.heap_sound leftover_armed rfl
  obtain ⟨address, hnew, hold⟩ := refilled_userdata mt
  have hnewest : (refilled mt).Armed 0 2 := .intro hnew rfl rfl ht hf hc
  have holder : (refilled mt).Armed 1 1 :=
    .intro ((hold 1 (by decide)).trans hu) hserial hmt ht hf hc
  have hflag : ∀ slot, leftover.heap.isFinalized slot = false →
      (refilled mt).heap.isFinalized slot = false := by
    intro slot hflag
    have hsame : (refilled mt).heap.isFinalized slot =
        (leftover.cycle.2.2.heap.newUserdata 0).2.isFinalized slot := rfl
    rw [hsame, Heap.newUserdata_isFinalized]
    split
    · rfl
    · exact isFinalized_cycle.trans hflag
  have hslots : ∀ slot, slot ∈ (refilled mt).shut.1 ↔ slot ∈ [0, 1] := by
    intro slot
    constructor
    · intro hslot
      by_cases hzero : slot = 0
      · simp [hzero]
      · obtain ⟨v, hv, -⟩ := Heap.mem_finalizable.mp hslot
        have hcycle : leftover.cycle.2.2.heap.userdata? slot = some v := (hold slot hzero).symm.trans hv
        have hlt : slot < 2 := Arena.lt_size (userdata?_cycle hcycle)
        have hone : slot = 1 := by omega
        simp [hone]
    · intro hslot
      rcases List.mem_pair.mp hslot with rfl | rfl
      · exact mem_shut_queue hnewest (hflag 0 rfl)
      · exact mem_shut_queue holder (hflag 1 rfl)
  have hsorted : (refilled mt).shut.1.Pairwise (· < ·) := Heap.finalizable_sorted
  have hperm := (List.perm_ext_iff_of_nodup (hsorted.imp Nat.ne_of_lt) (by decide)).mpr hslots
  refine ⟨mt, hnewest, holder, hperm.eq_of_pairwise ?_ hsorted (by decide)⟩
  intro a b _ _ hab hba
  exact absurd hab (Nat.not_lt_of_lt hba)

theorem refilled_runs (mt : Nat) : Runs [] (create {}) (refilled mt) := by
  have hcycle : Runs [] (create {}) leftover.cycle.2.2 := by
    refine leftover_runs.trans_nil (.collect rfl ?_)
    rw [leftover_cycle.1]
    exact .refl _
  have hbase : leftover.cycle.2.2.base = 0 := by
    obtain ⟨heap, events, h⟩ := leftover.cycle_eq
    rw [h]
    rfl
  refine ((hcycle.trans_nil (.change (.heap _ (.newUserdata 0)))).trans_nil
    (.change (.heap _ (.userMeta 0 (some mt))))).trans_nil (.change (.stack #[] ?_ ?_))
  · exact Nat.le_of_eq hbase
  · exact fun i hi => absurd (hbase ▸ hi) (Nat.not_lt_zero i)

/-- What the log holds when the closing has filled its queue. -/
theorem refilled_shut_events {mt : Nat} (hnewest : (refilled mt).Armed 0 2)
    (holder : (refilled mt).Armed 1 1) (hqueue : (refilled mt).shut.1 = [0, 1]) :
    (refilled mt).shut.2.events =
      [.queued 1 1, .queued 0 2, .closing, .cycle leftover.Reached] := by
  have hevent : ∀ {slot serial}, (refilled mt).Armed slot serial →
      queuedEvent? (refilled mt).heap slot = some (.queued slot serial) := by
    rintro slot serial ⟨hu, rfl, -⟩
    rw [queuedEvent?, hu]
    rfl
  have hearlier : (refilled mt).events = [.cycle leftover.Reached] := by
    change leftover.cycle.2.2.events = _
    rw [cycle_events, leftover_cycle.1]
    rfl
  rw [shut_events, hqueue, hearlier]
  simp [hevent hnewest, hevent holder]

/-- The closing finalizes the userdata that was made last after one that is older, as its slot is
    lower. -/
theorem refilled_out_of_order : ∃ m, Runs [] (create {}) m ∧
    queue 2 m.events = [⟨2, 1, 1⟩, ⟨2, 0, 2⟩] ∧ invoked 2 m.events = [⟨2, 0, 2⟩, ⟨2, 1, 1⟩] := by
  obtain ⟨mt, hnewest, holder, hqueue⟩ := refilled_armed
  have hevents := refilled_shut_events hnewest holder hqueue
  have hhost : (Programs.host [] 1).Lawful := Programs.host_lawful 1
  have hlimits : (refilled mt).limits = {} := by
    change leftover.cycle.2.2.limits = _
    rw [cycle_limits]
    rfl
  have hopen : (refilled mt).closed = false := by
    obtain ⟨heap, events, h⟩ := leftover.cycle_eq
    change leftover.cycle.2.2.closed = false
    rw [h]
    rfl
  have hroom : (refilled mt).shut.2.HasRoom :=
    Act.turns_room (ε := ScriptError) [] hhost hopen (by rw [hlimits]; decide)
  have hshut : ∀ {slot serial}, (refilled mt).Armed slot serial →
      (refilled mt).shut.2.Armed slot serial :=
    fun h => h.of_eq (by rw [shut_heap]; rfl) (by rw [shut_heap]; rfl) (by rw [shut_heap]; rfl)
  obtain ⟨m, hturns, hlog⟩ := (hshut holder).turns (hshut hnewest) hroom
  rw [hevents] at hlog
  refine ⟨m, (refilled_runs mt).trans_nil (.close hopen (by rw [hqueue]; exact hturns)), ?_, ?_⟩ <;>
    rw [hlog] <;> rfl

end Machine

end ScriptHost
