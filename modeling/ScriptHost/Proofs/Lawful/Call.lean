import ScriptHost.Machine.Call
import ScriptHost.Proofs.Lawful.Table

/-! # Calls

A call is the bracket of a frame around the run of the function, and a protected call the bracket of a
guard around a call. Message handlers run inside both, and showing them an error never fails.
-/

namespace ScriptHost

namespace Machine

variable {m m' : Machine} {p : Nat}

/-! ## Brackets -/

theorem leads_call {f : Frame} (hbase : m.base ≤ f.function) (hlt : f.function < m.stack.size)
    (h : Leads (m.enterFrame f) m') : Leads m m'.leaveFrame :=
  fun _ => .call f hbase hlt (h hlt)

theorem leads_protect {handler : Option Value} (h : Leads (m.pushGuard { handler }) m') :
    Leads m m'.popGuard := fun hm => .protect handler (h hm)

/-- The run of a message handler, which is pushed with its argument on top of the stack. -/
theorem leads_handle {handler raised : Value} (answer : Option Value) (hheeds : m.Heeds handler)
    (h : Leads (m.beginHandling handler raised) m') :
    Leads m (m'.endHandling m.stack.size raised answer) := by
  intro hm
  have hbegun := (Service.begun handler raised hheeds).isolated hm
  have hbase := ((h hbegun.framed).preserved hbegun.framed).base_le
  refine .handle answer hheeds (h hbegun.framed) (Nat.le_trans hbase ?_)
  rw [hbegun.base]
  exact hm

theorem Leads.then_truncate (h : Leads m m') (hp : m.base ≤ p) : Leads m (m'.truncate p) :=
  fun hm => (h.trans (leads_truncate (Nat.le_trans ((h hm).preserved hm).base_le hp))) hm

/-- What was put on top of the stack is taken off again. -/
theorem Leads.then_cut (h : Leads m m') : Leads m (m'.truncate m.stack.size) :=
  fun hm => h.then_truncate hm hm

theorem leads_moveDown {count : Nat} (hp : m.base ≤ p) : Leads m (m.moveDown p count) := by
  refine leads_stack (fun hm => ?_) fun i hi hlt => ?_
  · rw [Array.size_append, Array.size_shrink]
    exact Nat.le_add_right_of_le (Nat.le_min.mpr ⟨hp, hm⟩)
  · have hip : i < p := Nat.lt_of_lt_of_le hi hp
    rw [Array.getElem?_append_left (by rw [Array.size_shrink]; omega), ← Array.getElem?_toList,
      Array.toList_shrink, List.getElem?_take_of_lt hip, Array.getElem?_toList]

theorem leads_forgetDecoration : Leads m m.forgetDecoration := fun _ => .forget m

/-- Returning drops the frame and moves results to where its function was. -/
theorem leads_returnResults {f : Frame} {wanted : Int} {count : Nat} (hbase : m.base ≤ f.function)
    (hlt : f.function < m.stack.size) (h : Leads (m.enterFrame f) m') :
    Leads m (m'.returnResults f.function wanted count) := by
  intro hm
  have hleave := leads_call hbase hlt (h.trans leads_forgetDecoration)
  have hbelow : m'.forgetDecoration.leaveFrame.base ≤ f.function :=
    Nat.le_trans ((hleave hm).preserved hm).base_le hbase
  unfold returnResults
  dsimp only
  split
  · exact hleave.trans (leads_moveDown hbelow) hm
  · refine hleave.trans ((leads_moveDown hbelow).trans (leads_resize ?_)) hm
    exact Nat.le_add_right_of_le hbelow

end Machine

open Machine

namespace Op

variable {ε α : Type}

/-- An operation that never fails. -/
def Total (x : Op ε α) : Prop := ∀ m, ∃ a m', x m = .ok a m'

end Op

namespace Act

variable {ε α : Type}

/-- An operation that never fails. -/
def Total (x : Act ε α) : Prop := ∀ host, Op.Total (x host)

theorem Total.modify (f : Machine → Machine) : (modify f : Act ε PUnit).Total :=
  fun _ m => ⟨⟨⟩, f m, rfl⟩

/-! ## Calling functions -/

variable {host : Host} {m m' : Machine} {position : Nat} {wanted : Int}
  {failed : ScriptError → Act ScriptError Unit}

theorem callee_function {slot : Nat} (h : m.stack[position]? = some (.function slot)) :
    callee position m = .ok slot m := by
  rw [callee, Op.run_bind, Op.run_get]
  dsimp only
  rw [h]
  rfl

/-- A value that is no function is called through its `__call` field. -/
theorem callee_other {v : Value} (hv : m.stack[position]?.getD .nil = v)
    (h : ∀ slot, v ≠ .function slot) : callee position m =
      match m.metafield v .call with
      | .function slot => .ok slot (m.insertAt position (.function slot))
      | _ => .error (.ofFault (.notCallable (m.describe v))) m := by
  rw [callee, Op.run_bind, Op.run_get]
  dsimp only
  rw [hv]
  split
  · exact absurd rfl (h _)
  · cases m.metafield v .call with
    | object r =>
        obtain ⟨kind, slot⟩ := r
        cases kind <;> rfl
    | nil | bool | float | int | string | light | foreign => rfl

/-- What a call comes to, case by case. -/
theorem invoke_eq : invoke failed position wanted host m =
    if m.atLimit then .error .stackOverflow m
    else match callee position m with
      | .error e m => .error e m
      | .ok slot m =>
          match m.heap.function? slot with
          | none => .error (.ofFault (.notCallable ValueKind.function.name)) m
          | some f =>
              match host.enter f.body.behaviour
                  (m.enterFrame { function := position, origin := f.body.origin }) with
              | .ok count m => .ok () (m.returnResults position wanted count)
              | .error e m =>
                  match failed e host m with
                  | .ok _ m => .error e m.leaveFrame
                  | .error e m => .error e m := by
  rw [invoke, run_bind, run_get]
  dsimp only
  by_cases hlimit : m.atLimit = true
  · rw [if_pos hlimit, if_pos hlimit]
    rfl
  · rw [if_neg hlimit, if_neg hlimit, run_bind, run_lift]
    cases callee position m with
    | error e m => rfl
    | ok slot m =>
        simp only [run_bind, run_get]
        cases m.heap.function? slot with
        | none => rfl
        | some f =>
            simp only [run_bind, run_modify, run_read, run_attempt, run_lift]
            cases host.enter f.body.behaviour _ with
            | ok count m => rfl
            | error e m =>
                simp only [run_bind]
                cases failed e host m <;> rfl

/-- The function to run is left at its position or put there, below the value that stands for it. -/
theorem callee_spec {slot : Nat} (h : callee position m = .ok slot m') :
    (m' = m ∧ m.stack[position]? = some (.function slot)) ∨
      m' = m.insertAt position (.function slot) := by
  by_cases hfun : ∃ slot, m.stack[position]?.getD .nil = .function slot
  · obtain ⟨slot', hslot⟩ := hfun
    have hat : m.stack[position]? = some (.function slot') := by
      cases hp : m.stack[position]? with
      | none => simp [hp] at hslot
      | some v => simpa [hp] using hslot
    rw [callee_function hat] at h
    cases h
    exact .inl ⟨rfl, hat⟩
  · rw [callee_other rfl fun slot hslot => hfun ⟨slot, hslot⟩] at h
    split at h
    · cases h
      exact .inr rfl
    · cases h

/-- A value that cannot be called leaves the machine as it was. -/
theorem callee_error {e : ScriptError} (h : callee position m = .error e m') : m' = m := by
  by_cases hfun : ∃ slot, m.stack[position]? = some (.function slot)
  · obtain ⟨slot, hslot⟩ := hfun
    rw [callee_function hslot] at h
    cases h
  · have hother : ∀ slot, m.stack[position]?.getD .nil ≠ .function slot := by
      intro slot hslot
      cases hp : m.stack[position]? with
      | none => simp [hp] at hslot
      | some v => exact hfun ⟨slot, by simpa [hp] using hslot⟩
    rw [callee_other rfl hother] at h
    split at h
    · cases h
    · cases h
      rfl

theorem callee_leads (hp : m.base ≤ position) {slot : Nat} (h : callee position m = .ok slot m') :
    Leads m m' ∧ m'.base ≤ position ∧ m.stack.size ≤ m'.stack.size := by
  rcases callee_spec h with ⟨rfl, -⟩ | rfl
  · exact ⟨.refl, hp, Nat.le_refl _⟩
  · refine ⟨leads_insertAt hp, hp, ?_⟩
    rw [← Array.length_toList, ← Array.length_toList, insertAt, toList_insertIdxIfInBounds]
    exact List.length_le_length_insertIdx

/-- A call is lawful if showing its error is, and never fails. -/
theorem invoke_leads (hhost : host.Lawful) (hbase : m.base ≤ position)
    (hlt : position < m.stack.size) (hfailed : ∀ e, (failed e).Lawful)
    (htotal : ∀ e, (failed e).Total) :
    Leads m (Op.after (invoke failed position wanted host) m) := by
  unfold Op.after
  rw [invoke_eq]
  by_cases hlimit : m.atLimit = true
  · rw [if_pos hlimit]
    exact .refl
  · rw [if_neg hlimit]
    cases hc : callee position m with
    | error e m' =>
        rw [callee_error hc]
        exact .refl
    | ok slot m' =>
        obtain ⟨hleads, hbase', hsize⟩ := callee_leads hbase hc
        refine hleads.trans ?_
        dsimp only
        cases m'.heap.function? slot with
        | none => exact .refl
        | some f =>
            have hframe : position < m'.stack.size := Nat.lt_of_lt_of_le hlt hsize
            have hrun := hhost f.body.behaviour (m'.enterFrame ⟨position, f.body.origin⟩)
            dsimp only
            cases hbody : host.enter f.body.behaviour (m'.enterFrame ⟨position, f.body.origin⟩) with
            | ok count m'' =>
                rw [Op.after_ok hbody] at hrun
                exact leads_returnResults (f := ⟨position, f.body.origin⟩) hbase' hframe hrun
            | error e m'' =>
                rw [Op.after_error hbody] at hrun
                have hshown := hfailed e host hhost m''
                obtain ⟨u, m''', hend⟩ := htotal e host m''
                rw [Op.after_ok hend] at hshown
                simp only [hend]
                exact leads_call (f := ⟨position, f.body.origin⟩) hbase' hframe (hrun.trans hshown)

theorem callHandler_leads (hhost : host.Lawful) (hbase : m.base ≤ position)
    (hlt : position < m.stack.size) : Leads m (Op.after (callHandler position host) m) :=
  invoke_leads hhost hbase hlt (fun _ => .modify fun _ => leads_errorValue)
    fun _ => .modify _

/-- What a message handler called at a stack position returns, unless it fails. -/
def answer (host : Host) (position : Nat) (m : Machine) : Option Value :=
  match callHandler position host m with
  | .ok () m => some (m.stack[position]?.getD .nil)
  | .error _ _ => none

/-- Running a handler never fails. -/
theorem runHandler_eq {ε : Type} (handler raised : Value) (host : Host) (m : Machine) :
    (runHandler handler raised : Act ε Unit) host m = .ok ()
      ((Op.after (callHandler m.stack.size host) (m.beginHandling handler raised)).endHandling
        m.stack.size raised (answer host m.stack.size (m.beginHandling handler raised))) := by
  rw [runHandler, run_bind, run_get]
  simp only [run_bind, run_modify, run_attempt, answer, Op.after]
  cases callHandler m.stack.size host (m.beginHandling handler raised) <;> rfl

theorem runHandler_leads {ε : Type} {handler raised : Value} (hhost : host.Lawful)
    (hheeds : m.Heeds handler) :
    Leads m (Op.after ((runHandler handler raised : Act ε Unit) host) m) := by
  intro hm
  have hbegun := (Service.begun handler raised hheeds).isolated hm
  rw [Op.after_ok (runHandler_eq handler raised host m)]
  refine leads_handle _ hheeds (callHandler_leads hhost ?_ ?_) hm
  · rw [hbegun.base]
    exact hm
  · rw [beginHandling_eq]
    simp only [Array.size_push]
    omega

/-- Without a handler that is due nothing but the error value is made. -/
theorem showHandler_idle {ε : Type} {e : ScriptError} (h : ∀ handler, ¬ m.Heeds handler) :
    (showHandler e : Act ε Unit) host m = .ok () (m.errorValue e).2 := by
  rw [showHandler, run_bind, run_modifyGet]
  dsimp only
  rw [run_bind, run_get]
  dsimp only
  rw [show (m.errorValue e).2.guards = m.guards from rfl]
  cases hguards : m.guards with
  | nil => rfl
  | cons g rest =>
      dsimp only
      cases hhandler : g.handler with
      | none => rfl
      | some handler =>
          have hrunning : g.running = true := by
            by_contra hidle
            exact h handler ⟨g, rest, hguards, hhandler, eq_false_of_ne_true hidle⟩
          dsimp only
          rw [if_pos (Bool.or_eq_true_iff.mpr (.inl hrunning))]
          rfl

/-- A handler that is due runs, unless what it made of this error stands. -/
theorem showHandler_heeds {ε : Type} (e : ScriptError) (host : Host) {handler : Value}
    (h : m.Heeds handler) :
    (∃ g rest d, m.guards = g :: rest ∧ g.decoration = some d ∧ d.raised = (m.errorValue e).1 ∧
      (showHandler e : Act ε Unit) host m = .ok () (m.errorValue e).2) ∨
    (showHandler e : Act ε Unit) host m =
      runHandler handler (m.errorValue e).1 host (m.errorValue e).2 := by
  obtain ⟨g, rest, hguards, hhandler, hidle⟩ := h
  rw [showHandler, run_bind, run_modifyGet]
  dsimp only
  rw [run_bind, run_get]
  dsimp only
  rw [show (m.errorValue e).2.guards = m.guards from rfl, hguards]
  dsimp only
  rw [hhandler, hidle, Bool.false_or]
  cases hdecoration : g.decoration with
  | none => exact .inr rfl
  | some d =>
      dsimp only
      split
      · rename_i hknown
        exact .inl ⟨g, rest, d, rfl, hdecoration, beq_iff_eq.mp hknown, rfl⟩
      · exact .inr rfl

/-- Showing an error to a handler never fails. -/
theorem showHandler_total {ε : Type} (e : ScriptError) : (showHandler e : Act ε Unit).Total := by
  intro host m
  by_cases h : ∃ handler, m.Heeds handler
  · obtain ⟨handler, h⟩ := h
    rcases showHandler_heeds e host h with ⟨_, _, _, _, _, _, hrun⟩ | hrun
    · exact ⟨_, _, hrun⟩
    · exact ⟨_, _, hrun.trans (runHandler_eq _ _ _ _)⟩
  · exact ⟨_, _, showHandler_idle fun handler hh => h ⟨handler, hh⟩⟩

/-- Showing an error makes its value first. -/
theorem showHandler_leads {ε : Type} (e : ScriptError) (hhost : host.Lawful) :
    Leads (m.errorValue e).2 (Op.after ((showHandler e : Act ε Unit) host) m) := by
  by_cases h : ∃ handler, m.Heeds handler
  · obtain ⟨handler, h⟩ := h
    rcases showHandler_heeds (ε := ε) e host h with ⟨_, _, _, _, _, _, hrun⟩ | hrun
    · rw [Op.after_ok hrun]
      exact .refl
    · rw [Op.after, hrun]
      exact runHandler_leads hhost h
  · rw [Op.after_ok (showHandler_idle fun handler hh => h ⟨handler, hh⟩)]
    exact .refl

theorem showHandler_lawful {ε : Type} (e : ScriptError) : (showHandler e : Act ε Unit).Lawful :=
  fun _ hhost _ => leads_errorValue.trans (showHandler_leads e hhost)

theorem callAt_leads (wanted : Int) (hhost : host.Lawful) (hbase : m.base ≤ position)
    (hlt : position < m.stack.size) : Leads m (Op.after (callAt position wanted host) m) :=
  invoke_leads hhost hbase hlt showHandler_lawful showHandler_total

theorem functionBelow_eq {count : Nat} : functionBelow count m =
    match m.functionBelow? count with
    | some p => .ok p m
    | none => .error (.ofFault .tooFewValues) m := by
  rw [functionBelow, Op.run_bind, Op.run_get]
  dsimp only
  cases m.functionBelow? count <;> rfl

theorem functionBelow?_bounds {count : Nat} (h : m.functionBelow? count = some position) :
    m.base ≤ position ∧ position < m.stack.size := by
  unfold functionBelow? top at h
  split at h
  · obtain rfl := Option.some.inj h
    omega
  · cases h

theorem functionBelow_spec {count : Nat} (h : functionBelow count m = .ok position m') :
    m' = m ∧ m.functionBelow? count = some position := by
  rw [functionBelow_eq] at h
  cases hp : m.functionBelow? count with
  | none =>
      rw [hp] at h
      cases h
  | some p =>
      rw [hp] at h
      cases h
      exact ⟨rfl, rfl⟩

theorem functionBelow_lawful (count : Nat) : (functionBelow count).Lawful := by
  intro m
  unfold Op.after
  rw [functionBelow_eq]
  cases m.functionBelow? count with
  | none => exact .refl
  | some p => exact .refl

theorem call_lawful (count : Nat) (wanted : Int) : (call count wanted).Lawful := by
  intro host hhost m
  refine leads_bind (functionBelow_lawful count m) fun p m' hp => ?_
  obtain ⟨rfl, hp⟩ := functionBelow_spec hp
  exact callAt_leads _ hhost (functionBelow?_bounds hp).1 (functionBelow?_bounds hp).2

/-- Without frames to drop nothing happens. -/
theorem truncateFrames_eq {depth : Nat} (h : m.frames.length ≤ depth) :
    m.truncateFrames depth = m := by
  rw [truncateFrames, Nat.sub_eq_zero_of_le h, List.drop_zero]

/-- What a protected call comes to. -/
theorem protectedCall_eq {count : Nat} {handler : Option StackIndex}
    (hp : m.functionBelow? count = some position) :
    protectedCall count wanted handler host m =
      match callAt position wanted host (m.pushGuard { handler := handler.map m.value }) with
      | .ok _ m' => .ok () m'.popGuard
      | .error e m' =>
          match (showHandler e : Act ScriptError Unit) host m' with
          | .ok _ m' =>
              .error (m'.failProtected m.depth position e).1 (m'.failProtected m.depth position e).2
          | .error e m' => .error e m' := by
  rw [protectedCall, run_bind, run_lift, functionBelow_eq, hp]
  simp only [run_bind, run_get, run_modify, run_attempt]
  cases callAt position wanted host (m.pushGuard { handler := handler.map m.value }) with
  | ok u m' => rfl
  | error e m' =>
      simp only [run_bind]
      cases (showHandler e : Act ScriptError Unit) host m' <;> rfl

/-- A protected call whose callee fails with an error, step by step. -/
theorem protectedCall_failed_eq {failed : Machine} {count : Nat} {e : ScriptError}
    (handler : Option StackIndex) (hp : m.functionBelow? count = some position)
    (hcall : callAt position wanted host (m.pushGuard { handler := handler.map m.value }) =
      .error e failed) : ∃ shown, (showHandler e : Act ScriptError Unit) host failed = .ok () shown ∧
    protectedCall count wanted handler host m = .error
      (shown.failProtected m.depth position e).1 (shown.failProtected m.depth position e).2 := by
  obtain ⟨u, shown, hshow⟩ := showHandler_total (ε := ScriptError) e host failed
  refine ⟨shown, hshow, ?_⟩
  rw [protectedCall_eq hp]
  simp only [hcall, hshow]

theorem leads_failProtected {e : ScriptError} {depth : Nat} (hframes : m.popGuard.frames.length ≤ depth)
    (hp : m.popGuard.base ≤ position) :
    Leads m.popGuard (m.failProtected depth position e).2 := by
  have hvalue : ∀ (m' : Machine) (final : ScriptError), m'.base ≤ position →
      Leads m' (((m'.errorValue final).2.truncate position).push (m'.errorValue final).1) :=
    fun m' final hp => leads_errorValue.trans
      ((leads_truncate (m := (m'.errorValue final).2) hp).trans leads_push)
  unfold failProtected
  rw [truncateFrames_eq hframes]
  exact leads_errorValue.trans (hvalue _ _ hp)

/-- A protected call that ends with an error drops what is left inside. -/
theorem runs_failProtected {handler : Option Value} {e : ScriptError} (hm : m.Framed)
    (h : Runs [] (m.pushGuard { handler }) m') (hp : m.base ≤ position) :
    Runs [] m'.popGuard (m'.failProtected m.depth position e).2 := by
  have hkept := (Runs.protect handler h).preserved hm
  refine leads_failProtected ?_ (Nat.le_trans hkept.base_le hp) hkept.framed
  cases hkept with
  | isolated h => exact Nat.le_of_eq (congrArg List.length h.frames)
  | closed h => simp [h.frames]

theorem protectedCall_lawful (count : Nat) (wanted : Int) (handler : Option StackIndex) :
    (protectedCall count wanted handler).Lawful := by
  intro host hhost m
  cases hp : m.functionBelow? count with
  | none =>
      refine leads_bind (functionBelow_lawful count m) fun p m' hfound => ?_
      rw [run_lift, functionBelow_eq, hp] at hfound
      cases hfound
  | some p =>
      obtain ⟨hbase, hlt⟩ := functionBelow?_bounds hp
      unfold Op.after
      rw [protectedCall_eq hp]
      have hcall := callAt_leads (m := m.pushGuard { handler := handler.map m.value }) wanted
        hhost hbase hlt
      cases hc : callAt p wanted host (m.pushGuard { handler := handler.map m.value }) with
      | ok u m' =>
          rw [Op.after_ok hc] at hcall
          exact leads_protect hcall
      | error e m' =>
          rw [Op.after_error hc] at hcall
          obtain ⟨u, m'', hshow⟩ := showHandler_total (ε := ScriptError) e host m'
          have hshown := showHandler_lawful (ε := ScriptError) e host hhost m'
          rw [Op.after_ok hshow] at hshown
          simp only [hshow]
          intro hm
          have hruns := (hcall.trans hshown) hm
          exact (Runs.protect _ hruns).trans_nil (runs_failProtected hm hruns hbase)

end Act

end ScriptHost
