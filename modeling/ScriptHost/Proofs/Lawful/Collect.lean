import ScriptHost.Machine.Collect
import ScriptHost.Proofs.Lawful.Call

/-! # Collection and allocation

Every slot that a cycle or a closing queues gets its turn before the operation ends, and a turn is a
protected call of its own. Allocations may start a cycle first.
-/

namespace ScriptHost

namespace Machine

variable {m m' : Machine} {slot f : Nat}

/-- The machine in which a finalizer is called: the function and the userdata are on top, and a
    guard without handler is active. -/
def prepared (m : Machine) (slot f : Nat) : Machine :=
  (((m.turned slot).push (.function f)).push (.userdata slot)).pushGuard {}

/-- What ends a turn: the guard goes, and so does all that was put on stack and frames. -/
def endTurn (m : Machine) (depth position : Nat) : Machine :=
  (m.popGuard.truncateFrames depth).truncate position

theorem prepared_eq (h : (m.beginTurn slot).metafield (.userdata slot) .finalizer = .function f) :
    m.prepared slot f =
      let m := (((m.beginTurn slot).push (.function f)).push (.userdata slot)).pushGuard {}
      if m.atLimit then m else m.note (.finalizing slot) slot := by
  have hlimit : ((((m.beginTurn slot).push (.function f)).push (.userdata slot)).pushGuard {}).atLimit
      = (((m.beginTurn slot).push .nil).push .nil).atLimit := by
    simp only [atLimit, push, pushGuard, depth, Array.size_push]
    rfl
  unfold prepared turned
  dsimp only
  rw [h, hlimit]
  dsimp only
  split
  · rfl
  · rw [note_eq, note_eq]
    rfl

theorem runs_prepared_endTurn (h : Leads (m.prepared slot f) m') (hm : (m.turned slot).Framed)
    (hdepth : m.depth = (m.turned slot).depth) (hsize : m.stack.size = (m.turned slot).stack.size) :
    ∃ m'', Runs [] ((m.turned slot).pushGuard {}) m'' ∧
      m'.endTurn m.depth m.stack.size = m''.popGuard := by
  have hguarded : Leads ((m.turned slot).pushGuard {}) m' := leads_push.trans (leads_push.trans h)
  have hframes : m'.popGuard.frames.length ≤ m.depth := by
    cases (hguarded hm).preserved hm with
    | isolated h =>
        rw [hdepth]
        exact Nat.le_of_eq (congrArg List.length h.frames)
    | closed h => simp [Machine.popGuard, h.frames]
  rw [endTurn, Act.truncateFrames_eq hframes, hsize]
  exact ⟨_, hguarded.then_cut hm, rfl⟩

end Machine

open Machine

namespace Act

variable {ε : Type} {host : Host} {m m' : Machine} {slot f : Nat} {queue : List Nat}

theorem finalize_function
    (h : (m.beginTurn slot).metafield (.userdata slot) .finalizer = .function f) :
    (finalize slot : Act ε Unit) host m = .ok ()
      ((Op.after (callAt m.stack.size 0 host) (m.prepared slot f)).endTurn m.depth m.stack.size) := by
  rw [finalize, run_bind, run_modify]
  simp only [run_bind, run_get]
  rw [h, prepared_eq h]
  simp only [run_bind, run_get, run_modify]
  by_cases hlimit :
      ((((m.beginTurn slot).push (.function f)).push (.userdata slot)).pushGuard {}).atLimit = true
  · rw [if_neg (by simp [hlimit]), if_pos hlimit]
    exact run_attempt_modify
  · rw [if_pos (by simp [hlimit]), if_neg hlimit, run_bind, run_modify]
    exact run_attempt_modify

theorem finalize_other
    (h : ∀ f, (m.beginTurn slot).metafield (.userdata slot) .finalizer ≠ .function f) :
    (finalize slot : Act ε Unit) host m = .ok () (m.turned slot) := by
  rw [finalize, run_bind, run_modify]
  simp only [run_bind, run_get, turned]
  rfl

/-- A turn never fails, whatever its finalizer does. -/
theorem finalize_total (slot : Nat) (host : Host) (m : Machine) :
    ∃ m', (finalize slot : Act ε Unit) host m = .ok () m' := by
  by_cases hf : ∃ f, (m.beginTurn slot).metafield (.userdata slot) .finalizer = .function f
  · obtain ⟨f, hf⟩ := hf
    exact ⟨_, finalize_function hf⟩
  · exact ⟨_, finalize_other fun f h => hf ⟨f, h⟩⟩

theorem finalizeAll_total (queue : List Nat) (host : Host) (m : Machine) :
    ∃ m', (finalizeAll queue : Act ε Unit) host m = .ok () m' := by
  unfold finalizeAll
  induction queue.reverse generalizing m with
  | nil => exact ⟨m, rfl⟩
  | cons slot rest ih =>
      obtain ⟨m', hfirst⟩ := finalize_total (ε := ε) slot host m
      obtain ⟨m'', hrest⟩ := ih m'
      refine ⟨m'', ?_⟩
      change ((finalize slot : Act ε Unit) >>= fun _ => rest.forM finalize) host m = _
      rw [run_bind, hfirst]
      exact hrest

/-- After the turn has begun all that happens is a protected call without a handler. -/
theorem turned_runs (slot : Nat) (hhost : host.Lawful) (hm : m.Framed) :
    ∃ m', Runs [] ((m.turned slot).pushGuard {}) m' ∧
      Op.after ((finalize slot : Act ε Unit) host) m = m'.popGuard := by
  have hturned := turned_isolated slot hm
  by_cases hf : ∃ f, (m.beginTurn slot).metafield (.userdata slot) .finalizer = .function f
  · obtain ⟨f, hf⟩ := hf
    rw [Op.after_ok (finalize_function hf)]
    obtain ⟨events, heq⟩ := turned_eq m slot
    have hdepth : (m.turned slot).depth = m.depth := by rw [heq]; rfl
    have hsize : (m.turned slot).stack.size = m.stack.size := by rw [heq]
    refine runs_prepared_endTurn (callAt_leads _ hhost ?_ ?_) hturned.framed hdepth.symm hsize.symm
    · exact Nat.le_trans (Nat.le_of_eq hturned.base) hm
    · simp only [prepared, pushGuard, push, Array.size_push, hsize]
      omega
  · rw [Op.after_ok (finalize_other fun f h => hf ⟨f, h⟩)]
    exact ⟨_, .refl _, rfl⟩

theorem finalize_runs (slot : Nat) (hhost : host.Lawful) (hm : m.Framed) :
    Runs [slot] m (Op.after ((finalize slot : Act ε Unit) host) m) := by
  obtain ⟨m', hrun, hafter⟩ := turned_runs (ε := ε) slot hhost hm
  rw [hafter]
  exact .turn hrun

/-- Turns are given one by one. -/
theorem after_turns {slots : List Nat} :
    Op.after ((List.forM (slot :: slots) finalize : Act ε PUnit) host) m =
      Op.after ((slots.forM finalize : Act ε PUnit) host)
        (Op.after ((finalize slot : Act ε Unit) host) m) := by
  obtain ⟨m', hfirst⟩ := finalize_total (ε := ε) slot host m
  change Op.after (((finalize slot : Act ε Unit) >>= fun _ => slots.forM finalize) host) m = _
  rw [Op.after_ok hfirst]
  unfold Op.after
  rw [run_bind, hfirst]

theorem turns_runs (slots : List Nat) (hhost : host.Lawful) (hm : m.Framed) :
    Runs slots m (Op.after ((slots.forM finalize : Act ε PUnit) host) m) := by
  induction slots generalizing m with
  | nil => exact .refl m
  | cons slot rest ih =>
      rw [after_turns]
      have hrun := finalize_runs (ε := ε) slot hhost hm
      exact hrun.trans (ih (hrun.framed hm))

theorem finalizeAll_runs (queue : List Nat) (hhost : host.Lawful) (hm : m.Framed) :
    Runs queue.reverse m (Op.after ((finalizeAll queue : Act ε Unit) host) m) :=
  turns_runs _ hhost hm

/-! ## Cycles and closing -/

theorem collect_closed (h : m.closed = true) : (collect : Act ε Nat) host m = .ok 0 m := by
  rw [collect, run_bind, run_get]
  simp only [h, if_true]
  rfl

/-- A collection is a cycle and the turns of what it queued. What it comes to is the number of
    objects freed, whatever finalizers do. -/
theorem collect_open (host : Host) (h : m.closed = false) :
    ∃ m', (finalizeAll m.cycle.1 : Act ε Unit) host m.cycle.2.2 = .ok () m' ∧
      (collect : Act ε Nat) host m = .ok m.cycle.2.1 m' := by
  obtain ⟨m', hrun⟩ := finalizeAll_total (ε := ε) m.cycle.1 host m.cycle.2.2
  refine ⟨m', hrun, ?_⟩
  rw [collect, run_bind, run_get]
  simp only [h, Bool.false_eq_true, if_false]
  rw [run_bind, run_modifyGet]
  dsimp only
  rw [run_bind, hrun]
  rfl

theorem collect_total (host : Host) (m : Machine) :
    ∃ freed m', (collect : Act ε Nat) host m = .ok freed m' := by
  cases h : m.closed with
  | true => exact ⟨0, m, collect_closed h⟩
  | false =>
      obtain ⟨m', -, hrun⟩ := collect_open (ε := ε) host h
      exact ⟨_, m', hrun⟩

theorem collect_lawful : (collect : Act ε Nat).Lawful := by
  intro host hhost m hm
  cases h : m.closed with
  | true =>
      rw [Op.after_ok (collect_closed h)]
      exact .refl m
  | false =>
      obtain ⟨m', hrun, hcollect⟩ := collect_open (ε := ε) host h
      rw [Op.after_ok hcollect]
      have hruns := finalizeAll_runs (ε := ε) m.cycle.1 hhost (cycle_isolated hm).framed
      rw [Op.after_ok hrun] at hruns
      exact .collect h hruns

theorem collectIfDue_lawful : (collectIfDue : Act ε Unit).Lawful :=
  .bind .get fun _ => .ite (.bind collect_lawful fun _ => .pure _) (.pure _)

/-- A collection takes place or not, and cannot fail. -/
theorem collectIfDue_cases (host : Host) (m : Machine) :
    ∃ m', (collectIfDue : Act ε Unit) host m = .ok () m' ∧
      (m' = m ∨ ∃ freed, (collect : Act ε Nat) host m = .ok freed m') := by
  obtain ⟨freed, m', hrun⟩ := collect_total (ε := ε) host m
  rw [collectIfDue, run_bind, run_get]
  dsimp only
  split
  · refine ⟨m', ?_, .inr ⟨freed, hrun⟩⟩
    rw [run_bind, hrun]
    rfl
  · exact ⟨m, rfl, .inl rfl⟩

theorem close_lawful : (close : Act ε Unit).Lawful := by
  intro host hhost m
  refine leads_get ?_
  cases h : m.closed with
  | true => exact .refl
  | false =>
      intro hm
      obtain ⟨m', hrun⟩ := finalizeAll_total (ε := ε) m.shut.1 host m.shut.2
      have hruns := finalizeAll_runs (ε := ε) m.shut.1 hhost (shut_closed h).framed
      rw [Op.after_ok hrun] at hruns
      have hclear : Leads m' { m' with cache := m'.cache.clear } :=
        (Change.cache _ fun _ _ hget => by cases hget).leads
      have hshut := Runs.close h hruns
      simp only [Bool.not_false, if_true]
      rw [Op.after, run_bind, run_modifyGet]
      dsimp only
      rw [run_bind, hrun]
      exact hshut.trans_nil (hclear (hshut.framed hm))

/-! ## Allocation -/

/-- What is captured from the stack lies in the frame. -/
theorem leads_capture {h : Heap Native} {v : Value} {upvalues : Nat} (hc : m.heap.Change h) :
    Leads m (({ m with heap := h }.truncate (m.stack.size - min upvalues m.top)).push v) := by
  intro hm
  have hfirst : m.base ≤ m.stack.size - min upvalues m.top := by
    unfold Framed top at *
    omega
  exact ((leads_heap hc).trans
    ((leads_truncate (m := { m with heap := h }) hfirst).trans leads_push)) hm

theorem pushFunction_lawful (behaviour : Behaviour) (upvalues : Nat) (origin : Origin) :
    (pushFunction behaviour upvalues origin : Act ε Unit).Lawful :=
  .bind collectIfDue_lawful fun _ => .modify fun _ => leads_capture (.newFunction _)

theorem pushNative_lawful (code : NativeCode) (origin : Origin) :
    (pushNative code origin : Act ε Unit).Lawful := pushFunction_lawful _ _ _

theorem newTable_lawful : (newTable : Act ε Unit).Lawful :=
  .bind collectIfDue_lawful fun _ => .modify fun _ => (leads_heap .newTable).trans leads_push

theorem newUserdata_lawful (size : Nat) : (newUserdata size : Act ε Address).Lawful :=
  .bind collectIfDue_lawful fun _ =>
    .modifyGet fun _ => (leads_heap (.newUserdata size)).trans leads_push

end Act

end ScriptHost
