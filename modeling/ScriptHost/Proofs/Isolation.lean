import ScriptHost.Proofs.Run

/-! # What a run keeps

A run leaves the frames as they were, the protected calls with their handlers, and the stack below
the base, unless it closes the machine. Then no frames and no protected calls are left.
-/

namespace ScriptHost.Machine

variable {m m' m'' : Machine} {q : List Nat}

/-- The running frame starts on the stack. -/
def Framed (m : Machine) : Prop := m.base ≤ m.stack.size

/-- Stack, frames and protected calls of another machine as far as code of a frame keeps them. -/
structure Isolated (m m' : Machine) : Prop where
  closed : m'.closed = m.closed
  frames : m'.frames = m.frames
  handlers : m'.guards.map (·.handler) = m.guards.map (·.handler)
  guards : m'.guards.tail = m.guards.tail
  stack : ∀ i < m.base, m'.stack[i]? = m.stack[i]?
  framed : m'.Framed

/-- The machine was closed meanwhile. -/
structure Closed (m m' : Machine) : Prop where
  opened : m.closed = false
  closed : m'.closed = true
  frames : m'.frames = []
  guards : m'.guards = []

/-- What a run leaves. -/
inductive Preserved (m m' : Machine) : Prop where
  | isolated (h : Isolated m m')
  | closed (h : Closed m m')

theorem Isolated.base (h : Isolated m m') : m'.base = m.base := by
  simp only [Machine.base, h.frames]

theorem Isolated.refl (hm : m.Framed) : Isolated m m := ⟨rfl, rfl, rfl, rfl, fun _ _ => rfl, hm⟩

theorem Isolated.trans (h : Isolated m m') (h' : Isolated m' m'') : Isolated m m'' where
  closed := h'.closed.trans h.closed
  frames := h'.frames.trans h.frames
  handlers := h'.handlers.trans h.handlers
  guards := h'.guards.trans h.guards
  stack i hi := (h'.stack i (h.base.symm ▸ hi)).trans (h.stack i hi)
  framed := h'.framed

theorem Closed.base (h : Closed m m') : m'.base = 0 := by
  simp only [Machine.base, h.frames]

theorem Closed.framed (h : Closed m m') : m'.Framed := by
  rw [Framed, h.base]
  exact Nat.zero_le _

theorem Preserved.framed (h : Preserved m m') : m'.Framed := by
  cases h with
  | isolated h => exact h.framed
  | closed h => exact h.framed

/-- A run keeps the base, or leaves one below it. -/
theorem Preserved.base_le (h : Preserved m m') : m'.base ≤ m.base := by
  cases h with
  | isolated h => exact Nat.le_of_eq h.base
  | closed h => simp [h.base]

theorem Preserved.trans (h : Preserved m m') (h' : Preserved m' m'') : Preserved m m'' := by
  rcases h with h | h <;> rcases h' with h' | h'
  · exact .isolated (h.trans h')
  · exact .closed ⟨h.closed ▸ h'.opened, h'.closed, h'.frames, h'.guards⟩
  · refine .closed ⟨h.opened, h'.closed.trans h.closed, h'.frames.trans h.frames, ?_⟩
    have := h'.handlers
    rw [h.guards] at this
    simpa using this
  · exact absurd h'.opened (by simp [h.closed])

/-- A machine that differs in nothing that a frame sees. -/
theorem Isolated.of_eq (hm : m.Framed) (closed : m'.closed = m.closed)
    (frames : m'.frames = m.frames) (guards : m'.guards = m.guards) (stack : m'.stack = m.stack) :
    Isolated m m' := by
  refine ⟨closed, frames, by rw [guards], by rw [guards], fun _ _ => by rw [stack], ?_⟩
  rw [Framed, Machine.base, frames, stack]
  exact hm

/-- A machine that differs in the innermost guard, but for its handler, and in the stack above the
    base. -/
theorem Isolated.of_guard {f : Guard → Guard} (closed : m'.closed = m.closed)
    (frames : m'.frames = m.frames) (guards : m'.guards = m.guards.modifyHead f)
    (handler : ∀ g, (f g).handler = g.handler) (stack : ∀ i < m.base, m'.stack[i]? = m.stack[i]?)
    (size : m.base ≤ m'.stack.size) : Isolated m m' := by
  refine ⟨closed, frames, ?_, ?_, stack, ?_⟩
  · rw [guards]
    cases m.guards <;> simp [handler]
  · rw [guards, List.tail_modifyHead]
  · rw [Framed, Machine.base, frames]
    exact size

theorem Change.isolated (h : Change m m') (hm : m.Framed) : Isolated m m' := by
  cases h with
  | stack s hsize hkeep => exact ⟨rfl, rfl, rfl, rfl, hkeep, hsize⟩
  | constructed slot =>
      rw [note_eq]
      exact .of_eq hm rfl rfl rfl rfl
  | intern | heap | host | cache | native => exact .of_eq hm rfl rfl rfl rfl

theorem Service.isolated (h : Service m m') (hm : m.Framed) : Isolated m m' := by
  cases h with
  | forgotten =>
      rw [forgetDecoration_eq]
      exact .of_guard rfl rfl rfl (fun g => by split <;> rfl) (fun _ _ => rfl) hm
  | begun handler raised =>
      rw [beginHandling_eq]
      refine .of_guard rfl rfl rfl (fun _ => rfl) (fun i hi => ?_) ?_
      · have hlt : i < m.stack.size := Nat.lt_of_lt_of_le hi hm
        simp [Array.getElem?_push, hlt, Nat.ne_of_lt hlt, Nat.ne_of_lt (Nat.lt_succ_of_lt hlt)]
      · simp only [Array.size_push]
        exact Nat.le_add_right_of_le (Nat.le_add_right_of_le hm)
  | ended position raised answer hposition =>
      obtain ⟨outcome, strings, houtcome⟩ := m.handlerOutcome_eq answer
      rw [endHandling_eq, houtcome]
      refine .of_guard rfl rfl rfl (fun _ => rfl) (fun i hi => ?_) ?_
      · have hlt : i < position := Nat.lt_of_lt_of_le hi hposition
        have hin : i < min position m.stack.size := Nat.lt_min.mpr ⟨hlt, Nat.lt_of_lt_of_le hi hm⟩
        simp [hin]
      · rw [Array.size_shrink]
        exact Nat.le_min.mpr ⟨hposition, hm⟩

theorem cycle_isolated (hm : m.Framed) : Isolated m m.cycle.2.2 := by
  obtain ⟨heap, events, h⟩ := m.cycle_eq
  rw [h]
  exact .of_eq hm rfl rfl rfl rfl

theorem shut_closed (h : m.closed = false) : Closed m m.shut.2 := by
  simp only [shut, enqueue_eq]
  exact ⟨h, rfl, rfl, rfl⟩

theorem turned_isolated (slot : Nat) (hm : m.Framed) : Isolated m (m.turned slot) := by
  obtain ⟨events, h⟩ := turned_eq m slot
  rw [h]
  exact .of_eq hm rfl rfl rfl rfl

/-- The call of a function keeps all that lies below the function, and the function. -/
theorem Preserved.leaveFrame {f : Frame} (hbase : m.base ≤ f.function)
    (h : Preserved (m.enterFrame f) m') : Preserved m m'.leaveFrame := by
  have hbelow : m.base ≤ f.base := Nat.le_succ_of_le hbase
  rcases h with h | h
  · have hframes : m'.leaveFrame.frames = m.frames := by simp [Machine.leaveFrame, h.frames, enterFrame]
    refine .isolated ⟨h.closed, hframes, h.handlers, h.guards, fun i hi => ?_, ?_⟩
    · exact h.stack i (Nat.lt_of_lt_of_le hi hbelow)
    · have hsize : f.base ≤ m'.stack.size := by
        have := h.framed
        rwa [Framed, h.base] at this
      rw [Framed, Machine.base, hframes]
      exact Nat.le_trans hbelow hsize
  · exact .closed ⟨h.opened, h.closed, by simp [Machine.leaveFrame, h.frames], h.guards⟩

theorem Preserved.popGuard {g : Guard} (h : Preserved (m.pushGuard g) m') :
    Preserved m m'.popGuard := by
  rcases h with h | h
  · have hguards : m'.popGuard.guards = m.guards := by simp [Machine.popGuard, h.guards, pushGuard]
    refine .isolated ⟨h.closed, h.frames, by rw [hguards], by rw [hguards], h.stack, ?_⟩
    have hframed := h.framed
    rw [Framed, Machine.base, h.frames] at hframed
    rw [Framed, Machine.base, show m'.popGuard.frames = m.frames from h.frames]
    exact hframed
  · exact .closed ⟨h.opened, h.closed, h.frames, by simp [Machine.popGuard, h.guards]⟩

/-- A run keeps frames, handlers and the stack below the base, or closes the machine. -/
theorem Runs.preserved (h : Runs q m m') (hm : m.Framed) : Preserved m m' := by
  induction h with
  | refl => exact .isolated (.refl hm)
  | trans _ _ ih ih' => exact (ih hm).trans (ih' (ih hm).framed)
  | change h => exact .isolated (h.isolated hm)
  | call f hbase hsize _ ih => exact (ih hsize).leaveFrame hbase
  | forget => exact .isolated (Service.forgotten.isolated hm)
  | protect handler _ ih => exact (ih hm).popGuard
  | @handle _ _ handler raised answer hheeds _ hbase ih =>
      have hbegun := Preserved.isolated ((Service.begun handler raised hheeds).isolated hm)
      have hrun := hbegun.trans (ih hbegun.framed)
      exact hrun.trans (.isolated ((Service.ended _ raised answer hbase).isolated hrun.framed))
  | collect _ _ ih =>
      have hcycle := Preserved.isolated (cycle_isolated hm)
      exact hcycle.trans (ih hcycle.framed)
  | close hopen _ ih =>
      have hshut := Preserved.closed (shut_closed hopen)
      exact hshut.trans (ih hshut.framed)
  | @turn _ _ slot _ ih =>
      have hturned := Preserved.isolated (turned_isolated slot hm)
      exact hturned.trans (ih hturned.framed).popGuard

theorem Runs.framed (h : Runs q m m') (hm : m.Framed) : m'.Framed := (h.preserved hm).framed

/-- A run that leaves the machine open or closed as it was keeps what lies below. -/
theorem Runs.isolated (h : Runs q m m') (hm : m.Framed) (hclosed : m'.closed = m.closed) :
    Isolated m m' := by
  cases h.preserved hm with
  | isolated h => exact h
  | closed h =>
      rw [h.opened, h.closed] at hclosed
      cases hclosed

/-! ## Frames of reachable states -/

/-- Frames lie one above the other, the innermost on the stack. -/
structure Stacked (m : Machine) : Prop where
  sorted : m.frames.Pairwise fun f g => g.base ≤ f.base
  framed : m.Framed

theorem Isolated.stacked (h : Isolated m m') (hm : m.Stacked) : m'.Stacked :=
  ⟨h.frames ▸ hm.sorted, h.framed⟩

theorem base_le_of_mem (hm : m.frames.Pairwise fun f g => g.base ≤ f.base) {g : Frame}
    (hg : g ∈ m.frames) : g.base ≤ m.base := by
  unfold base
  cases hf : m.frames with
  | nil => simp [hf] at hg
  | cons f rest =>
      rw [hf] at hg hm
      rcases List.mem_cons.mp hg with rfl | hg
      · exact Nat.le_refl _
      · exact (List.pairwise_cons.mp hm).1 g hg

theorem stacked_leaveFrame (hm : m.Stacked) : m.leaveFrame.Stacked := by
  have hsorted : m.leaveFrame.frames.Pairwise fun f g => g.base ≤ f.base := hm.sorted.tail
  refine ⟨hsorted, ?_⟩
  have hle : m.leaveFrame.base ≤ m.base := by
    unfold base
    cases hf : m.leaveFrame.frames with
    | nil => exact Nat.zero_le _
    | cons g rest =>
        have hg : g ∈ m.frames.tail := by
          rw [show m.frames.tail = g :: rest from hf]
          exact List.mem_cons_self
        exact base_le_of_mem hm.sorted (List.mem_of_mem_tail hg)
  exact Nat.le_trans hle hm.framed

theorem Move.stacked (h : Move m m') (hm : m.Stacked) : m'.Stacked := by
  cases h with
  | change h => exact (h.isolated hm.framed).stacked hm
  | service h => exact (h.isolated hm.framed).stacked hm
  | enter f hbase hlt =>
      refine ⟨List.pairwise_cons.mpr ⟨fun g hg => ?_, hm.sorted⟩, hlt⟩
      exact Nat.le_succ_of_le (Nat.le_trans (base_le_of_mem hm.sorted hg) hbase)
  | leave => exact stacked_leaveFrame hm
  | protect | unprotect => exact ⟨hm.sorted, hm.framed⟩
  | cycle => exact (cycle_isolated hm.framed).stacked hm
  | shut hopen =>
      have hshut := shut_closed hopen
      exact ⟨by simp [hshut.frames], hshut.framed⟩
  | turn slot => exact (turned_isolated slot hm.framed).stacked hm

/-- In every state the running frame starts on the stack. -/
theorem Reachable.framed (hm : m.Reachable) : m.Framed :=
  (hm.induction (P := Stacked) (fun _ => ⟨List.Pairwise.nil, Nat.zero_le _⟩) Move.stacked).framed

end ScriptHost.Machine
