import ScriptHost.Proofs.Finalizers
import ScriptHost.Proofs.Freshness
import ScriptHost.Proofs.Spec.Call

/-! # Finalizers and the code that they interrupt

Every allocation may start a cycle, in the middle of whatever runs: in a function many calls deep, or in a
message handler that looks at an error. The finalizers that are due then run on the same stack, each in a
protected call of its own. When that ends, all that it put on stack and frames goes, and errors of the
finalizer are seen by no handler. So the code that was interrupted goes on as if the finalizers had done
nothing, unless one of them closes the machine.
-/

namespace ScriptHost

open Machine

/-- A host whose functions return at once, without values. -/
def Host.idle : Host := { enter := fun _ => pure 0 }

theorem Host.idle_lawful : Host.idle.Lawful := fun _ _ => .refl

/-- The functions of a host return, and close no machine. -/
def Host.Returns (host : Host) : Prop := ∀ b m, ∃ n m', host.enter b m = .ok n m' ∧ m'.closed = m.closed

theorem Host.idle_returns : Host.idle.Returns := fun _ m => ⟨0, m, rfl, rfl⟩

namespace Machine

variable {m m' m'' : Machine}

/-- Code goes on in another machine where it was: on the same stack and in the same frames and protected
    calls, with their handlers, flags and decorations. -/
structure Resumes (m m' : Machine) : Prop where
  stack : m'.stack = m.stack
  frames : m'.frames = m.frames
  guards : m'.guards = m.guards

theorem Resumes.refl (m : Machine) : Resumes m m := ⟨rfl, rfl, rfl⟩

theorem Resumes.trans (h : Resumes m m') (h' : Resumes m' m'') : Resumes m m'' :=
  ⟨h'.stack.trans h.stack, h'.frames.trans h.frames, h'.guards.trans h.guards⟩

theorem cycle_resumes (m : Machine) : Resumes m m.cycle.2.2 := by
  obtain ⟨heap, events, h⟩ := m.cycle_eq
  rw [h]
  exact ⟨rfl, rfl, rfl⟩

end Machine

namespace Act

variable {ε : Type} {host : Host} {m m' : Machine}

/-! ## Turns -/

/-- The guard of a turn is the one that its finalizer may change, and goes with it. -/
theorem finalize_resumes (slot : Nat) (hhost : host.Lawful) (hm : m.Framed)
    (hclosed : (Op.after ((finalize slot : Act ε Unit) host) m).closed = m.closed) :
    m.Resumes (Op.after ((finalize slot : Act ε Unit) host) m) := by
  have hlaid : Laid m.base m.stack.toList (Op.after ((finalize slot : Act ε Unit) host) m) :=
    finalize_laid hhost hm ⟨rfl, rfl⟩ hclosed
  obtain ⟨last, hruns, hafter⟩ := turned_runs (ε := ε) slot hhost hm
  obtain ⟨events, hturned⟩ := turned_eq m slot
  have hframed : ((m.turned slot).pushGuard {}).Framed := (turned_isolated slot hm).framed
  have hopen : last.closed = ((m.turned slot).pushGuard {}).closed := by
    rw [hafter] at hclosed
    rw [hturned]
    exact hclosed
  have hkept := hruns.isolated hframed hopen
  refine ⟨Array.toList_inj.mp hlaid.stack, ?_, ?_⟩
  · rw [hafter]
    change last.frames = _
    rw [hkept.frames, hturned]
    rfl
  · rw [hafter]
    change last.guards.tail = _
    rw [hkept.guards, hturned]
    rfl

theorem turns_resumes (slots : List Nat) (hhost : host.Lawful) (hm : m.Framed)
    (hclosed : (Op.after ((slots.forM finalize : Act ε PUnit) host) m).closed = m.closed) :
    m.Resumes (Op.after ((slots.forM finalize : Act ε PUnit) host) m) := by
  induction slots generalizing m with
  | nil => exact .refl m
  | cons slot rest ih =>
      rw [after_turns] at hclosed ⊢
      have hrun := finalize_runs (ε := ε) slot hhost hm
      have hframed := hrun.framed hm
      obtain ⟨hfirst, hrest⟩ := hrun.closed_between (turns_runs _ hhost hframed) hm hclosed
      exact (finalize_resumes slot hhost hm hfirst).trans (ih hframed hrest)

/-- A cycle and the turns of what it found due leave the code that is interrupted as it was. -/
theorem collect_resumes (hhost : host.Lawful) (hm : m.Framed) {freed : Nat}
    (hrun : (collect : Act ε Nat) host m = .ok freed m') (hclosed : m'.closed = m.closed) :
    m.Resumes m' := by
  cases h : m.closed with
  | true =>
      rw [collect_closed h] at hrun
      cases hrun
      exact .refl m
  | false =>
      obtain ⟨last, hturns, hcollect⟩ := collect_open (ε := ε) host h
      rw [hcollect] at hrun
      cases hrun
      have hcycle := cycle_isolated hm
      have hresumes := turns_resumes (ε := ε) m.cycle.1.reverse hhost hcycle.framed
      change (Op.after ((finalizeAll m.cycle.1 : Act ε Unit) host) m.cycle.2.2).closed = _ →
        m.cycle.2.2.Resumes (Op.after ((finalizeAll m.cycle.1 : Act ε Unit) host) m.cycle.2.2) at hresumes
      rw [Op.after_ok hturns] at hresumes
      exact (cycle_resumes m).trans (hresumes (hclosed.trans hcycle.closed.symm))

theorem collectIfDue_resumes (hhost : host.Lawful) (hm : m.Framed)
    (hrun : (collectIfDue : Act ε Unit) host m = .ok () m') (hclosed : m'.closed = m.closed) :
    m.Resumes m' := by
  obtain ⟨last, hdue, hcases⟩ := collectIfDue_cases (ε := ε) host m
  rw [hdue] at hrun
  cases hrun
  rcases hcases with rfl | ⟨freed, hcollect⟩
  · exact .refl _
  · exact collect_resumes hhost hm hcollect hclosed

/-! ## Finalizers that return -/

theorem callAt_closed (hhost : host.Returns) (position : Nat) (m : Machine) :
    (Op.after (callAt position 0 host) m).closed = m.closed := by
  unfold Op.after
  rw [callAt, invoke_eq]
  by_cases hlimit : m.atLimit = true
  · rw [if_pos hlimit]
  · rw [if_neg hlimit]
    cases hc : callee position m with
    | error e m₁ =>
        dsimp only
        rw [callee_error hc]
    | ok slot m₁ =>
        have hcalled : m₁.closed = m.closed := by
          rcases callee_spec hc with ⟨rfl, -⟩ | rfl <;> rfl
        dsimp only
        cases hf : m₁.heap.function? slot with
        | none => exact hcalled
        | some f =>
            obtain ⟨n, last, hbody, hclosed⟩ := hhost f.body.behaviour (m₁.enterFrame ⟨position, f.body.origin⟩)
            simp only [hbody, closed_returnResults]
            exact hclosed.trans hcalled

theorem finalize_closed (hhost : host.Returns) (slot : Nat) (m : Machine) :
    (Op.after ((finalize slot : Act ε Unit) host) m).closed = m.closed := by
  obtain ⟨events, hturned⟩ := turned_eq m slot
  have hclosed : (m.turned slot).closed = m.closed := by rw [hturned]
  by_cases hf : ∃ f, (m.beginTurn slot).metafield (.userdata slot) .finalizer = .function f
  · obtain ⟨f, hf⟩ := hf
    rw [Op.after_ok (finalize_function hf)]
    exact (callAt_closed hhost m.stack.size (m.prepared slot f)).trans hclosed
  · rw [Op.after_ok (finalize_other fun f h => hf ⟨f, h⟩)]
    exact hclosed

theorem turns_closed (hhost : host.Returns) (slots : List Nat) (m : Machine) :
    (Op.after ((slots.forM finalize : Act ε PUnit) host) m).closed = m.closed := by
  induction slots generalizing m with
  | nil => rfl
  | cons slot rest ih =>
      rw [after_turns, ih]
      exact finalize_closed hhost slot m

theorem collect_stays_closed (hhost : host.Returns) {freed : Nat} (hrun : (collect : Act ε Nat) host m = .ok freed m') :
    m'.closed = m.closed := by
  cases h : m.closed with
  | true =>
      rw [collect_closed h] at hrun
      cases hrun
      exact h
  | false =>
      obtain ⟨last, hturns, hcollect⟩ := collect_open (ε := ε) host h
      rw [hcollect] at hrun
      cases hrun
      have hlast := turns_closed (ε := ε) hhost m.cycle.1.reverse m.cycle.2.2
      change (Op.after ((finalizeAll m.cycle.1 : Act ε Unit) host) m.cycle.2.2).closed = _ at hlast
      rw [Op.after_ok hturns] at hlast
      obtain ⟨heap, events, hcycle⟩ := m.cycle_eq
      rw [hlast, hcycle, ← h]

theorem collectIfDue_closed (hhost : host.Returns) (hrun : (collectIfDue : Act ε Unit) host m = .ok () m') :
    m'.closed = m.closed := by
  obtain ⟨last, hdue, hcases⟩ := collectIfDue_cases (ε := ε) host m
  rw [hdue] at hrun
  cases hrun
  rcases hcases with rfl | ⟨freed, hcollect⟩
  · rfl
  · exact collect_stays_closed hhost hcollect

end Act

/-! ## Operations that may start a cycle -/

namespace Creation

/-- How many values from the top a creation takes. -/
def taken (m : Machine) : Creation → Nat
  | .function _ upvalues _ => min upvalues m.top
  | .table | .userdata _ => 0

/-- The object on its own, after the collection. -/
def make (m : Machine) : Creation → Machine
  | .table => { m with heap := m.heap.newTable.2 }.push (.table m.heap.newTable.1)
  | .function behaviour upvalues origin =>
      let first := m.stack.size - min upvalues m.top
      let made := m.heap.newFunction
        { body := { behaviour, origin }, upvalues := m.stack.extract first m.stack.size }
      ({ m with heap := made.2 }.truncate first).push (.function made.1)
  | .userdata size =>
      { m with heap := (m.heap.newUserdata size).2 }.push (.userdata (m.heap.newUserdata size).1)

theorem run_eq {ε : Type} (c : Creation) (host : Host) (m : Machine) :
    ∃ m₁, (Act.collectIfDue : Act ε Unit) host m = .ok () m₁ ∧
      (c.run : Act ε Unit) host m = .ok () (c.make m₁) := by
  obtain ⟨m₁, hrun, -⟩ := Act.collectIfDue_cases (ε := ε) host m
  refine ⟨m₁, hrun, ?_⟩
  cases c with
  | table | function => exact Act.bind_ok hrun
  | userdata size => exact (Act.bind_ok (Act.bind_ok hrun)).trans rfl

variable {m m' : Machine}

theorem make_control (c : Creation) (m : Machine) :
    (c.make m).closed = m.closed ∧ (c.make m).frames = m.frames ∧ (c.make m).guards = m.guards := by
  cases c <;> exact ⟨rfl, rfl, rfl⟩

/-- What is taken goes from the top, and the object comes there. -/
theorem make_stack (c : Creation) (m : Machine) : ∃ v,
    (c.make m).stack = (m.stack.shrink (m.stack.size - c.taken m)).push v := by
  have hall : m.stack.shrink (m.stack.size - 0) = m.stack := by simp
  cases c with
  | table =>
      refine ⟨.table m.heap.newTable.1, ?_⟩
      rw [taken, hall]
      rfl
  | userdata size =>
      refine ⟨.userdata (m.heap.newUserdata size).1, ?_⟩
      rw [taken, hall]
      rfl
  | function => exact ⟨_, rfl⟩

/-- The values that a new function on top has captured. -/
def captured (m : Machine) : Creation → Array Value
  | .function .. =>
      match m.stack.back? with
      | some (.function slot) => ((m.heap.function? slot).map (·.upvalues)).getD #[]
      | _ => #[]
  | .table | .userdata _ => #[]

theorem captured_make (c : Creation) (hm : m.heap.Sound) :
    c.captured (c.make m) = m.stack.extract (m.stack.size - c.taken m) m.stack.size := by
  cases c with
  | table | userdata => simp [captured, taken]
  | function behaviour upvalues origin =>
      simp only [captured, make, Machine.push, Machine.truncate, Array.back?_push,
        Heap.function?_newFunction hm, Option.map_some, Option.getD_some, taken]

end Creation

/-- An operation that may start a cycle. -/
inductive Trigger where
  | collect
  | create (c : Creation)

namespace Trigger

def run {ε : Type} : Trigger → Act ε Unit
  | .collect => do
      let _ ← Act.collect
  | .create c => c.run

/-- How many values from the top an operation takes. -/
def taken (m : Machine) : Trigger → Nat
  | .collect => 0
  | .create c => c.taken m

/-- The values that a new function on top has captured. -/
def captured (m : Machine) : Trigger → Array Value
  | .collect => #[]
  | .create c => c.captured m

/-- The machines that an operation leaves are alike in what the code that issued it sees: frames, protected
    calls, and all stack slots that were there before, but for those that the operation takes. A function
    that takes them has captured the same. -/
structure Alike (op : Trigger) (m m₁ m₂ : Machine) : Prop where
  frames : m₁.frames = m₂.frames
  guards : m₁.guards = m₂.guards
  size : m₁.stack.size = m₂.stack.size
  stack : ∀ i < m.stack.size - op.taken m, m₁.stack[i]? = m₂.stack[i]?
  captured : op.captured m₁ = op.captured m₂

/-- What an operation leaves of a machine. -/
structure Leaves (op : Trigger) (m m' : Machine) : Prop where
  frames : m'.frames = m.frames
  guards : m'.guards = m.guards
  stack : ∃ pushed : Array Value, m'.stack = m.stack.shrink (m.stack.size - op.taken m) ++ pushed ∧
    pushed.size = match op with
      | .collect => 0
      | .create _ => 1
  captured : op.captured m' = m.stack.extract (m.stack.size - op.taken m) m.stack.size

variable {ε : Type} {op : Trigger} {host : Host} {m m₁ m₂ : Machine}

theorem Leaves.alike (h₁ : op.Leaves m m₁) (h₂ : op.Leaves m m₂) : op.Alike m m₁ m₂ := by
  obtain ⟨pushed₁, hstack₁, hsize₁⟩ := h₁.stack
  obtain ⟨pushed₂, hstack₂, hsize₂⟩ := h₂.stack
  refine ⟨h₁.frames.trans h₂.frames.symm, h₁.guards.trans h₂.guards.symm, ?_, ?_,
    h₁.captured.trans h₂.captured.symm⟩
  · rw [hstack₁, hstack₂, Array.size_append, Array.size_append, hsize₁, hsize₂]
  · intro i hi
    have hlt : i < (m.stack.shrink (m.stack.size - op.taken m)).size := by
      rw [Array.size_shrink]
      omega
    rw [hstack₁, hstack₂, Array.getElem?_append_left hlt, Array.getElem?_append_left hlt]

/-- The operation never fails, and leaves the machine as it would without any finalizer. -/
theorem run_leaves (op : Trigger) (hm : m.Reachable) (hhost : host.Lawful) :
    ∃ m', (op.run : Act ε Unit) host m = .ok () m' ∧ (m'.closed = m.closed → op.Leaves m m') := by
  cases op with
  | collect =>
      obtain ⟨freed, m', hcollect⟩ := Act.collect_total (ε := ε) host m
      refine ⟨m', Act.bind_ok hcollect, fun hclosed => ?_⟩
      have hresumes := Act.collect_resumes hhost hm.framed hcollect hclosed
      refine ⟨hresumes.frames, hresumes.guards, ⟨#[], ?_, rfl⟩, by simp [captured, taken]⟩
      simp [taken, hresumes.stack]
  | create c =>
      obtain ⟨m₁, hdue, hrun⟩ := c.run_eq (ε := ε) host m
      refine ⟨c.make m₁, hrun, fun hclosed => ?_⟩
      obtain ⟨hmade, hframes, hguards⟩ := c.make_control m₁
      have hresumes := Act.collectIfDue_resumes hhost hm.framed hdue (hmade.symm.trans hclosed)
      have hruns := Act.collectIfDue_lawful (ε := ε) host hhost m hm.framed
      rw [Op.after_ok hdue] at hruns
      have htaken : c.taken m₁ = c.taken m := by
        have htop : m₁.top = m.top := by
          simp only [Machine.top, Machine.base, hresumes.stack, hresumes.frames]
        cases c <;> simp only [Creation.taken, htop]
      obtain ⟨v, hstack⟩ := c.make_stack m₁
      refine ⟨hframes.trans hresumes.frames, hguards.trans hresumes.guards, ⟨#[v], ?_, rfl⟩, ?_⟩
      · rw [hstack, hresumes.stack, htaken]
        rfl
      · have hcaptured := c.captured_make (hm.runs hruns).heap_sound
        rw [hresumes.stack, htaken] at hcaptured
        exact hcaptured

theorem run_closed (hhost : host.Returns) (op : Trigger) (hrun : (op.run : Act ε Unit) host m = .ok () m₁) :
    m₁.closed = m.closed := by
  cases op with
  | collect =>
      obtain ⟨freed, m', hcollect⟩ := Act.collect_total (ε := ε) host m
      have hboth : (Trigger.collect.run : Act ε Unit) host m = .ok () m' := Act.bind_ok hcollect
      rw [hboth] at hrun
      cases hrun
      exact Act.collect_stays_closed hhost hcollect
  | create c =>
      obtain ⟨m', hdue, hboth⟩ := c.run_eq (ε := ε) host m
      change (c.run : Act ε Unit) host m = _ at hrun
      rw [hboth] at hrun
      cases hrun
      exact (c.make_control m').1.trans (Act.collectIfDue_closed hhost hdue)

end Trigger

namespace Machine

/-- A dropped userdata with a finalizer, and a protected call with a value on the stack. -/
def interruptible : Machine := (abandoned.push (.int 7)).pushGuard { handler := some (.int 7) }

theorem interruptible_reachable : interruptible.Reachable := by
  have hpush : Move abandoned (abandoned.push (.int 7)) :=
    .change (.stack _ (Nat.zero_le _) fun _ hi => absurd hi (Nat.not_lt_zero _))
  exact abandoned_reachable.moves ((Relation.ReflTransGen.single hpush).tail (.protect _))

theorem interruptible_due : interruptible.Due 0 := by
  have hunreached : ¬ interruptible.Reached ⟨.userdata, 0⟩ := by
    intro hr
    have hmem := hr.mem [⟨.table, 0⟩, ⟨.table, 1⟩] (by decide) (by decide)
    simp at hmem
  exact ⟨_, rfl, hunreached, rfl, by decide⟩

/-- A host whose functions leave a value on the stack of their frame. -/
def cluttering : Host := { enter := fun _ => do
  modify (·.push (.int 1))
  pure 0 }

end Machine

end ScriptHost
