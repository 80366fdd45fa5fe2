import ScriptHost.Proofs.Finalizers
import ScriptHost.Proofs.Spec.Call
import ScriptHost.Proofs.Table

/-! # Armed userdata

A userdata is armed while its metatable holds a function under `__gc`. Cycles keep what is armed and
has had no turn, and the closing of the machine gives it one. A finalizer is lost only where a limit
is in the way at the turn, or where the turn was spent before the userdata was armed.
-/

namespace ScriptHost

open Machine

namespace Machine

variable {m m' : Machine} {slot serial s : Nat} {q : List Nat}

/-- The metatable of the userdata of a serial holds a function under `__gc`. -/
inductive Armed (m : Machine) (slot serial : Nat) : Prop where
  | intro {u mt t f c} : m.heap.userdata? slot = some u → u.serial = serial → u.metatable = some mt →
      m.heap.tables.get? mt = some t → t.get (.string Metafield.finalizer.id) = .function f →
      m.heap.function? f = some c → Armed m slot serial

/-- With a function and its argument on top no limit is in the way of a call. -/
def HasRoom (m : Machine) : Prop := ((m.push .nil).push .nil).atLimit = false

/-- The finalizer of a userdata was entered, or the userdata is armed. -/
def Minded (m : Machine) (slot serial : Nat) : Prop :=
  .finalizing slot serial ∈ m.events ∨ m.Armed slot serial

/-- A step that does not disarm a userdata before its finalizer was entered, and gives it a turn only
    where there is room for a call. -/
structure Tended (slot serial : Nat) (m m' : Machine) : Prop where
  move : Move m m'
  minded : Change m m' → m'.Minded slot serial
  room : m' = m.turned slot → m.HasRoom

/-- The finalizer of a userdata was entered, or the userdata is armed and has had no turn. -/
def Safe (m : Machine) (slot serial : Nat) : Prop :=
  .finalizing slot serial ∈ m.events ∨ m.Armed slot serial ∧ m.heap.isFinalized slot = false

theorem Armed.of_eq (h : m.Armed slot serial) (userdata : m'.heap.userdata = m.heap.userdata)
    (tables : m'.heap.tables = m.heap.tables) (functions : m'.heap.functions = m.heap.functions) :
    m'.Armed slot serial := by
  obtain @⟨u, mt, t, f, c, hu, hserial, hmt, ht, hf, hc⟩ := h
  have hu' : m'.heap.userdata? slot = some u := by rw [Heap.userdata?, userdata]; exact hu
  have hc' : m'.heap.function? f = some c := by rw [Heap.function?, functions]; exact hc
  exact .intro hu' hserial hmt (tables ▸ ht) hf hc'

theorem Armed.safe_of_heap (h : m.Armed slot serial) (hflag : m.heap.isFinalized slot = false)
    (hheap : m'.heap = m.heap) : m'.Safe slot serial :=
  .inr ⟨h.of_eq (by rw [hheap]) (by rw [hheap]) (by rw [hheap]), by rw [hheap]; exact hflag⟩

theorem hasMetaEntry_of_armed (h : m.Armed slot serial) : ∃ u, m.heap.userdata? slot = some u ∧
    m.heap.hasMetaEntry u Metafield.finalizer.id = true := by
  obtain ⟨hu, -, hmt, ht, hf, -⟩ := h
  refine ⟨_, hu, ?_⟩
  rw [Heap.hasMetaEntry, hmt, Option.bind_some, ht]
  simp [hf, Value.isNil]

/-- A cycle keeps an armed userdata that has had no turn, with its metatable and the function. -/
theorem armed_cycle (hs : m.heap.Sound) (h : m.Armed slot serial)
    (hflag : m.heap.isFinalized slot = false) : m.cycle.2.2.Armed slot serial := by
  have hentry := hasMetaEntry_of_armed h
  obtain @⟨u, mt, t, f, c, hu, hserial, hmt, ht, hf, hc⟩ := h
  have hkept : m.Kept ⟨.userdata, slot⟩ := by
    by_cases hreached : m.Reached ⟨.userdata, slot⟩
    · exact .inl hreached
    · obtain ⟨v, hv, hentry⟩ := hentry
      exact .inr (.start ⟨slot, ⟨v, hv, hreached, hflag, hentry⟩, rfl⟩ rfl)
  -- What is kept leads from the userdata to its metatable, and from there to the function.
  have hstep : ∀ {r v r'}, m.Kept r → m.heap.Holds r v → v.ref? = some r' → m.Kept r' :=
    fun h hv hr => h.imp (fun h => .step h hv hr) fun h => .step h hv hr
  have htable : m.Kept ⟨.table, mt⟩ := hstep hkept (.userMeta hu hmt) rfl
  have hfunction : m.Kept ⟨.function, f⟩ := by
    have hmem := Table.mem_of_get (t := t) (k := .string Metafield.finalizer.id) (by rw [hf]; rfl)
    rw [hf] at hmem
    rcases hmem with hmem | hmem
    · exact hstep htable (.item ht hmem) rfl
    · exact hstep htable (.entry ht hmem) rfl
  exact .intro (userdata?_cycle_of_kept hs hu hkept) hserial hmt
    (Heap.contents?_table.mp ((contents?_cycle_of_kept hs htable).trans (Heap.contents?_table.mpr ht)))
    hf (Heap.contents?_function.mp
      ((contents?_cycle_of_kept hs hfunction).trans (Heap.contents?_function.mpr hc)))

/-- The turn of an armed userdata enters its finalizer if there is room. -/
theorem armed_turned (h : m.Armed slot serial) (hroom : m.HasRoom) :
    .finalizing slot serial ∈ (m.turned slot).events := by
  obtain ⟨hu, rfl, hmt, ht, hf, -⟩ := h
  rw [turned_enters hu hmt ht hf hroom]
  exact List.mem_cons_self

/-- A turn without room is lost: the finalizer is not entered, and no cycle queues the userdata again. -/
theorem turned_without_room (hroom : ¬ m.HasRoom) (hs : m.heap.Sound) :
    (m.turned slot).events = .turn slot :: m.events ∧ ¬ (m.turned slot).Due slot := by
  have hlimit : ((m.push .nil).push .nil).atLimit = true := by simpa [HasRoom] using hroom
  have hlimit : (((m.beginTurn slot).push .nil).push .nil).atLimit = true := hlimit
  refine ⟨?_, fun ⟨u, hu, _, hflag, _⟩ => ?_⟩
  · unfold turned
    dsimp only
    split
    · rw [if_pos hlimit]
      rfl
    · rfl
  · obtain ⟨events, heq⟩ := turned_eq m slot
    rw [heq] at hu hflag
    have hlt := hs.flagged (show m.heap.userdata? slot = some u from hu)
    simp [Heap.isFinalized, Heap.setFinalized, hlt] at hflag

theorem Tended.safe (h : Tended slot serial m m') (hs : m.heap.Sound) (hm : m.Safe slot serial) :
    m'.Safe slot serial := by
  rcases hm with hentered | ⟨harmed, hflag⟩
  · obtain ⟨later, hlog⟩ := h.move.log
    exact .inl (hlog ▸ List.mem_append_right later hentered)
  · obtain ⟨hmove, hminded, hroom⟩ := h
    -- Only a change can disarm the userdata, and only its own turn sets its flag.
    cases hmove with
    | change hchange =>
        refine (hminded hchange).imp id fun harmed' => ⟨harmed', ?_⟩
        obtain ⟨hu, -⟩ := harmed
        rcases hchange.occupant hs slot with ⟨hsame, -⟩ | ⟨hnone, -⟩
        · rw [hsame]
          exact hflag
        · rw [hnone] at hu
          cases hu
    | cycle => exact .inr ⟨armed_cycle hs harmed hflag, isFinalized_cycle.trans hflag⟩
    | shut =>
        refine .inr ⟨harmed.of_eq ?_ ?_ ?_, ?_⟩ <;> rw [shut_heap]
        · rfl
        · rfl
        · rfl
        · exact hflag
    | turn t =>
        by_cases ht : t = slot
        · subst ht
          exact .inl (armed_turned harmed (hroom rfl))
        · obtain ⟨events, heq⟩ := turned_eq m t
          refine .inr ⟨harmed.of_eq ?_ ?_ ?_, ?_⟩ <;> rw [heq]
          · rfl
          · rfl
          · rfl
          · simpa [Heap.isFinalized, Heap.setFinalized, Array.getElem?_setIfInBounds_ne ht] using hflag
    | service h => exact harmed.safe_of_heap hflag h.heap
    | enter | leave | protect | unprotect => exact harmed.safe_of_heap hflag rfl

/-- Until the machine is closed no tended userdata loses its turn. -/
theorem Reachable.safe (hm : m.Reachable) (hsafe : m.Safe slot serial)
    (hrun : Relation.ReflTransGen (Tended slot serial) m m') : m'.Reachable ∧ m'.Safe slot serial := by
  induction hrun with
  | refl => exact ⟨hm, hsafe⟩
  | tail _ hstep ih =>
      obtain ⟨hm, hsafe⟩ := ih
      exact ⟨hm.moves (.single hstep.move), hstep.safe hm.heap_sound hsafe⟩

/-- What closing queues. -/
theorem mem_shut_queue (h : m.Armed slot serial) (hflag : m.heap.isFinalized slot = false) :
    slot ∈ m.shut.1 := by
  obtain ⟨u, hu, hentry⟩ := hasMetaEntry_of_armed h
  refine Heap.mem_finalizable.mpr ⟨u, hu, Heap.not_marked_prepare ?_, hflag, hentry⟩
  simp [Heap.contents?, show m.heap.userdata.get? slot = some u from hu]

/-! ## Turns while the machine is closed -/

theorem Change.limits (h : Change m m') : m'.limits = m.limits := by
  cases h with
  | constructed => rw [note_eq]
  | stack | intern | heap | host | cache | native => rfl

theorem Service.limits (h : Service m m') : m'.limits = m.limits := by
  obtain ⟨stack, guards, events, strings, rfl⟩ := h.eq
  rfl

theorem cycle_limits : m.cycle.2.2.limits = m.limits := by
  obtain ⟨heap, events, h⟩ := m.cycle_eq
  rw [h]

theorem shut_limits : m.shut.2.limits = m.limits := by
  simp only [shut, enqueue_eq]
  rfl

theorem Runs.limits (h : Runs q m m') : m'.limits = m.limits := by
  induction h with
  | refl => rfl
  | trans _ _ ih ih' => exact ih'.trans ih
  | change h => exact h.limits
  | forget => exact Service.forgotten.limits
  | call _ _ _ _ ih | protect _ _ ih => exact ih
  | @handle _ _ handler raised answer hheeds _ hbase ih =>
      exact (Service.ended _ raised answer hbase).limits.trans
        (ih.trans (Service.begun handler raised hheeds).limits)
  | collect _ _ ih => exact ih.trans cycle_limits
  | close _ _ ih => exact ih.trans shut_limits
  | @turn m _ slot _ ih =>
      obtain ⟨events, h⟩ := turned_eq m slot
      exact ih.trans (by rw [h]; rfl)

end Machine

namespace Act

variable {ε : Type} {host : Host} {m m' : Machine} {slot serial : Nat} {before after : List Nat}

/-- The turns before and after one of them. -/
theorem after_turns_append : Op.after (((before ++ slot :: after).forM finalize : Act ε PUnit) host) m =
    Op.after ((after.forM finalize : Act ε PUnit) host) (Op.after ((finalize slot : Act ε Unit) host)
      (Op.after ((before.forM finalize : Act ε PUnit) host) m)) := by
  induction before generalizing m with
  | nil => exact after_turns
  | cons s before ih =>
      rw [List.cons_append, after_turns, after_turns]
      exact ih

/-- Closing is the turns of all that is due. -/
theorem close_open (host : Host) (h : m.closed = false) : ∃ m',
    (close : Act ε Unit) host m = .ok () m' ∧
      m'.events = (Op.after ((m.shut.1.reverse.forM finalize : Act ε PUnit) host) m.shut.2).events := by
  obtain ⟨m', hrun⟩ := finalizeAll_total (ε := ε) m.shut.1 host m.shut.2
  have hafter : Op.after ((m.shut.1.reverse.forM finalize : Act ε PUnit) host) m.shut.2 = m' :=
    Op.after_ok hrun
  refine ⟨{ m' with cache := m'.cache.clear }, ?_, by rw [hafter]⟩
  rw [close, run_bind, run_get]
  simp only [h, Bool.not_false, if_true]
  rw [run_bind, run_modifyGet]
  dsimp only
  rw [run_bind, hrun]
  rfl

/-- Each of these turns starts without stack and frames, so that there is room for a call unless the
    limits allow none at all. -/
theorem turns_room (before : List Nat) (hhost : host.Lawful) (hopen : m.closed = false)
    (hlimits : 0 < m.limits.callDepth ∧ 2 ≤ m.limits.stackSlots) :
    (Op.after ((before.forM finalize : Act ε PUnit) host) m.shut.2).HasRoom := by
  have hshut := shut_closed hopen
  have hruns := turns_runs (ε := ε) before hhost hshut.framed
  have hclosed := ((hruns.preserved hshut.framed).closed_le hshut.closed).trans hshut.closed.symm
  have hframes := (hruns.isolated hshut.framed hclosed).frames.trans hshut.frames
  have hlaid : Laid 0 [] m.shut.2 := ⟨hshut.base, by simp only [shut, enqueue_eq]; rfl⟩
  -- A closed machine is not closed again, so that every turn leaves the empty stack as it was.
  have hsize := (turns_laid before hhost hshut.framed hlaid hclosed).size
  have hsame := hruns.limits.trans shut_limits
  simp only [HasRoom, atLimit, push, Machine.depth, hframes, hsame, Array.size_push, hsize,
    List.length_nil, Bool.or_eq_false_iff, decide_eq_false_iff_not]
  omega

/-- Closing enters the finalizer of what is due, if it is armed at its turn. -/
theorem close_enters (hhost : host.Lawful) (hopen : m.closed = false)
    (hlimits : 0 < m.limits.callDepth ∧ 2 ≤ m.limits.stackSlots) (hslot : slot ∈ m.shut.1)
    (hkept : ∀ before after, m.shut.1.reverse = before ++ slot :: after →
      (Op.after ((before.forM finalize : Act ε PUnit) host) m.shut.2).Minded slot serial)
    (hclose : (close : Act ε Unit) host m = .ok () m') : .finalizing slot serial ∈ m'.events := by
  obtain ⟨m₂, hrun, hevents⟩ := close_open (ε := ε) host hopen
  rw [hclose] at hrun
  cases hrun
  obtain ⟨before, after, hsplit⟩ := List.append_of_mem (List.mem_reverse.mpr hslot)
  have hminded := hkept before after hsplit
  rw [hevents, hsplit, after_turns_append]
  have hframed := (turns_runs (ε := ε) before hhost (shut_closed hopen).framed).framed
    (shut_closed hopen).framed
  have hroom := turns_room (ε := ε) before hhost hopen hlimits
  generalize Op.after ((before.forM finalize : Act ε PUnit) host) m.shut.2 = m₁ at *
  have hturn := finalize_runs (ε := ε) slot hhost hframed
  -- The log only grows: what the turn of the slot adds is there when the closing is done.
  obtain ⟨last, hlast⟩ := (turns_runs (ε := ε) after hhost (hturn.framed hframed)).log
  rw [hlast]
  refine List.mem_append_right _ ?_
  rcases hminded with hentered | harmed
  · obtain ⟨later, hlater⟩ := hturn.log
    exact hlater ▸ List.mem_append_right _ hentered
  · obtain ⟨m₃, hturned, hafter⟩ := turned_runs (ε := ε) slot hhost hframed
    obtain ⟨later, hlater⟩ := hturned.log
    rw [hafter, show m₃.popGuard.events = m₃.events from rfl, hlater]
    exact List.mem_append_right _ (armed_turned harmed hroom)

end Act

namespace Machine

open Act

variable {host : Host} {m m₁ m' : Machine} {slot serial : Nat}

/-- No finalizer is lost: once a userdata is armed, and as long as it stays so until its turn, closing
    the machine does not return before its finalizer was entered, whatever cycles and finalizers run
    in between. The turns that cycles give it have to come where there is room for a call; those of
    the closing always do, unless the limits allow no call at all. -/
theorem Reachable.finalizer_entered (hm : m.Reachable) (hhost : host.Lawful)
    (harmed : m.Armed slot serial) (hflag : m.heap.isFinalized slot = false)
    (hrun : Relation.ReflTransGen (Tended slot serial) m m₁) (hopen : m₁.closed = false)
    (hlimits : 0 < m₁.limits.callDepth ∧ 2 ≤ m₁.limits.stackSlots)
    (hkept : ∀ before after, m₁.shut.1.reverse = before ++ slot :: after →
      (Op.after ((before.forM finalize : Act ScriptError PUnit) host) m₁.shut.2).Minded slot serial)
    (hclose : (close : Act ScriptError Unit) host m₁ = .ok () m') :
    .finalizing slot serial ∈ m'.events := by
  obtain ⟨hm₁, hsafe⟩ := hm.safe (.inr ⟨harmed, hflag⟩) hrun
  rcases hsafe with hentered | ⟨harmed₁, hflag₁⟩
  · obtain ⟨later, hlog⟩ := (close_lawful.run_ok hhost hm₁.framed hclose).log
    exact hlog ▸ List.mem_append_right later hentered
  · exact close_enters hhost hopen hlimits (mem_shut_queue harmed₁ hflag₁) hkept hclose

theorem abandoned_armed : abandoned.Armed 0 0 := .intro rfl rfl rfl rfl rfl rfl

/-- The userdata that was dropped and never collected has its turn when the machine is closed. -/
theorem abandoned_finalizer_entered : ∃ m',
    (close : Act ScriptError Unit) (Programs.host [] 1) abandoned = .ok () m' ∧
      .finalizing 0 0 ∈ m'.events := by
  have hqueue : abandoned.shut.1 = [0] := by decide
  have hshut : abandoned.shut.2.Armed 0 0 :=
    abandoned_armed.of_eq (by rw [shut_heap]; rfl) (by rw [shut_heap]; rfl) (by rw [shut_heap]; rfl)
  obtain ⟨m', hclose, -⟩ := close_open (ε := ScriptError) (m := abandoned)
    (Programs.host [] 1) rfl
  refine ⟨m', hclose, ?_⟩
  refine abandoned_reachable.finalizer_entered (Programs.host_lawful 1) abandoned_armed rfl .refl rfl
    (by decide) (fun before after hsplit => ?_) hclose
  rw [hqueue] at hsplit
  cases before with
  | nil => exact .inr hshut
  | cons s before => simp at hsplit

end Machine

end ScriptHost
