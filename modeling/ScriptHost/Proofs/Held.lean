import ScriptHost.Proofs.Finalizers
import ScriptHost.Proofs.Spec

/-! # What a frame holds

A userdata on the stack below the running frame stays where it is, whatever the frame does: cycles
reach it from the stack, so that none of them frees it or queues its finalizer.
-/

namespace ScriptHost.Machine

open Event (finalized)

variable {m m' : Machine} {q : List Nat} {p slot serial : Nat}

/-- A stack position holds the userdata of a serial, whose finalizer was not entered. -/
structure Held (p slot serial : Nat) (m : Machine) : Prop where
  stack : m.stack[p]? = some (.userdata slot)
  userdata : ∃ u, m.heap.userdata? slot = some u ∧ u.serial = serial
  fresh : serial ∉ finalized m.events

theorem Held.of_eq (h : Held p slot serial m) (stack : m'.stack[p]? = m.stack[p]?)
    (heap : m'.heap = m.heap) (events : m'.events = m.events) : Held p slot serial m' :=
  ⟨stack.trans h.stack, heap ▸ h.userdata, events ▸ h.fresh⟩

theorem Held.reached (h : Held p slot serial m) : m.Reached ⟨.userdata, slot⟩ :=
  .start (.stack (Array.mem_of_getElem? h.stack)) rfl

/-- A change finds the userdata in its slot and leaves it there. -/
theorem Change.held (h : Change m m') (hs : m.heap.Sound) (hm : m.Framed) (hp : p < m.base)
    (hheld : Held p slot serial m) : Held p slot serial m' := by
  obtain ⟨u, hu, hserial⟩ := hheld.userdata
  obtain ⟨later, hevents, hquiet⟩ := h.events
  refine ⟨((h.isolated hm).stack p hp).trans hheld.stack, ?_, ?_⟩
  · rcases h.occupant hs slot with ⟨-, hsame⟩ | ⟨hnone, -⟩
    · rw [hu, Option.map_some] at hsame
      obtain ⟨u', hu', hserial'⟩ := Option.map_eq_some_iff.mp hsame
      exact ⟨u', hu', hserial'.trans hserial⟩
    · rw [hnone] at hu
      cases hu
  · rw [hevents, (Event.orderly_append slot m.events hquiet).1]
    exact hheld.fresh

/-- A message handler works above what is held. -/
theorem Service.held (h : Service m m') (hm : m.Framed) (hp : p < m.base)
    (hheld : Held p slot serial m) : Held p slot serial m' := by
  obtain ⟨later, hevents, hquiet⟩ := h.events
  refine ⟨((h.isolated hm).stack p hp).trans hheld.stack, h.heap ▸ hheld.userdata, ?_⟩
  rw [hevents, (Event.orderly_append slot m.events hquiet).1]
  exact hheld.fresh

theorem finalized_cycle : finalized m.cycle.2.2.events = finalized m.events := by
  have hquiet := queued_quiet m.heap m.cycle.1 (e := .cycle m.Reached) rfl
  rw [cycle_events, List.append_cons]
  exact (Event.orderly_append 0 m.events hquiet).1

theorem held_cycle (hs : m.heap.Sound) (hheld : Held p slot serial m) :
    Held p slot serial m.cycle.2.2 := by
  obtain ⟨u, hu, hserial⟩ := hheld.userdata
  obtain ⟨heap, events, heq⟩ := m.cycle_eq
  refine ⟨?_, ⟨u, userdata?_cycle_of_kept hs hu (.inl hheld.reached), hserial⟩, ?_⟩
  · rw [heq]
    exact hheld.stack
  · rw [finalized_cycle]
    exact hheld.fresh

/-- The turn of another slot is that of another userdata. -/
theorem held_turned {s : Nat} (hs : m.heap.Sound) (hne : s ≠ slot) (hheld : Held p slot serial m) :
    Held p slot serial (m.turned s) := by
  obtain ⟨events, heq⟩ := turned_eq m s
  obtain ⟨u, hu, rfl⟩ := hheld.userdata
  refine ⟨?_, ⟨u, ?_, rfl⟩, ?_⟩
  · rw [heq]
    exact hheld.stack
  · rw [heq]
    exact hu
  · rcases turned_events m s with h | ⟨v, hv, h⟩ <;> rw [h]
    · exact hheld.fresh
    · intro hin
      rcases List.mem_cons.mp hin with hsame | hin
      · exact hne (hs.serial_inj hv hu hsame.symm)
      · exact hheld.fresh hin

/-- Code of a frame keeps what is held below the frame, unless it closes the machine. The slot is not
    among those that wait for their turns outside. -/
theorem Runs.held (h : Runs q m m') (hm : m.Framed) (hs : m.heap.Sound)
    (hclosed : m'.closed = m.closed) (hq : slot ∉ q) (hp : p < m.base)
    (hheld : Held p slot serial m) : Held p slot serial m' := by
  induction h with
  | refl => exact hheld
  | trans h h' ih ih' =>
      obtain ⟨hc, hc'⟩ := h.closed_between h' hm hclosed
      rw [List.mem_append, not_or] at hq
      have hbase := (h.isolated hm hc).base
      exact ih' (h.framed hm) (h.heap_sound hs) hc' hq.2 (hbase.symm ▸ hp) (ih hm hs hc hq.1 hp hheld)
  | change h => exact h.held hs hm hp hheld
  | call f hbase hlt _ ih =>
      have hp' : p < f.base := Nat.lt_of_lt_of_le hp (Nat.le_succ_of_le hbase)
      exact (ih hlt hs hclosed hq hp' (hheld.of_eq rfl rfl rfl)).of_eq rfl rfl rfl
  | forget => exact Service.forgotten.held hm hp hheld
  | protect handler _ ih =>
      exact (ih hm hs hclosed hq hp (hheld.of_eq rfl rfl rfl)).of_eq rfl rfl rfl
  | @handle m m' handler raised answer hheeds h hbase ih =>
      have hbegun := (Service.begun handler raised hheeds).isolated hm
      have hend : Service m' (m'.endHandling m.stack.size raised answer) := .ended _ _ _ hbase
      have hframed := h.framed hbegun.framed
      have hopen : m'.closed = m.closed := (hend.isolated hframed).closed.symm.trans hclosed
      have hc := hopen.trans hbegun.closed.symm
      have hsound := (Service.begun handler raised hheeds).heap ▸ hs
      have hlow : p < (m.beginHandling handler raised).base := hbegun.base.symm ▸ hp
      have hinner := ih hbegun.framed hsound hc hq hlow
        ((Service.begun handler raised hheeds).held hm hp hheld)
      exact hend.held hframed ((h.isolated hbegun.framed hc).base.symm ▸ hlow) hinner
  | collect hopen _ ih =>
      have hcycle := cycle_isolated hm
      refine ih hcycle.framed (cycle_sound hs) (hclosed.trans hcycle.closed.symm) (fun hin => ?_)
        (hcycle.base.symm ▸ hp) (held_cycle hs hheld)
      obtain ⟨_, _, hreached, _⟩ := mem_cycle_queue.mp (List.mem_reverse.mp hin)
      exact hreached hheld.reached
  | close hopen h _ =>
      -- Closing is for good, but the run leaves the machine as it found it.
      have hshut := shut_closed hopen
      rw [(h.preserved hshut.framed).closed_le hshut.closed, hopen] at hclosed
      cases hclosed
  | @turn m _ s _ ih =>
      have hturned := turned_isolated s hm
      have hne : s ≠ slot := fun h => hq (h ▸ List.mem_singleton_self s)
      have hbase : p < (m.turned s).base := hturned.base.symm ▸ hp
      exact (ih hturned.framed (turned_sound s hs) (hclosed.trans hturned.closed.symm) (by simp)
        hbase ((held_turned hs hne hheld).of_eq rfl rfl rfl)).of_eq rfl rfl rfl

end ScriptHost.Machine
