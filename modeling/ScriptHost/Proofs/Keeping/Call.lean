import ScriptHost.Proofs.Keeping

/-! # Calls and collections that keep the class library

A call leaves a machine equipped if the function does, and so do message handlers and finalizers, which are
called on the way. A cycle frees nothing that classes are found through.
-/

namespace ScriptHost

open Machine

variable {l : Library}

namespace Machine.Equipped

variable {m : Machine} {n : Nat} {wanted : Int}

theorem returnResults (h : m.Equipped l) (position : Nat) (wanted : Int) (count : Nat) :
    (m.returnResults position wanted count).Equipped l := h.passes (.returnResults _ _ _)

theorem beginHandling (h : m.Equipped l) (handler raised : Value) : (m.beginHandling handler raised).Equipped l := by
  rw [beginHandling_eq]
  exact h.of_heap rfl rfl rfl rfl rfl rfl

theorem endHandling (h : m.Equipped l) (position : Nat) (raised : Value) (answer : Option Value) :
    (m.endHandling position raised answer).Equipped l := by
  have houtcome : (m.handlerOutcome answer).2.Equipped l := by
    cases answer with
    | some v => exact h
    | none => exact h.errorValue _
  obtain ⟨outcome, strings, heq⟩ := m.handlerOutcome_eq answer
  rw [endHandling_eq, heq]
  rw [heq] at houtcome
  exact houtcome.of_heap rfl rfl rfl rfl rfl rfl

theorem turned (h : m.Equipped l) (slot : Nat) : (m.turned slot).Equipped l := by
  obtain ⟨events, heq⟩ := turned_eq m slot
  rw [heq]
  exact h.of_eq (Heap.sound_setFinalized h.sound) rfl rfl rfl rfl rfl rfl rfl rfl

end Machine.Equipped

namespace Act

variable {ε : Type} {host : Host} {m m' : Machine} {position : Nat} {wanted : Int}
  {failed : ScriptError → Act ScriptError Unit}

/-! ## Calls -/

/-- A call keeps the library if showing its error does. -/
theorem invoke_keeps (hhost : host.Keeps l) (hbase : m.base ≤ position) (hlt : position < m.stack.size)
    (hm : m.Framed) (h : m.Equipped l)
    (hfailed : ∀ e (m' : Machine), m'.Framed → m'.Equipped l → (Op.after (failed e host) m').Equipped l) :
    (Op.after (invoke failed position wanted host) m).Equipped l := by
  unfold Op.after
  rw [invoke_eq]
  by_cases hlimit : m.atLimit = true
  · rw [if_pos hlimit]
    exact h
  · rw [if_neg hlimit]
    cases hc : callee position m with
    | error e m₁ =>
        rw [callee_error hc]
        exact h
    | ok slot m₁ =>
        obtain ⟨hleads, hbase₁, hsize⟩ := callee_leads hbase hc
        have h₁ : m₁.Equipped l := by
          rcases callee_spec hc with ⟨rfl, -⟩ | rfl
          · exact h
          · exact h.stack
        dsimp only
        cases m₁.heap.function? slot with
        | none => exact h₁
        | some f =>
            have hframed : (m₁.enterFrame ⟨position, f.body.origin⟩).Framed := Nat.lt_of_lt_of_le hlt hsize
            have hbody := hhost.enter f.body.behaviour hframed (h₁.of_heap rfl rfl rfl rfl rfl rfl)
            have hrun := hhost.lawful f.body.behaviour _ hframed
            dsimp only
            cases hend : host.enter f.body.behaviour (m₁.enterFrame ⟨position, f.body.origin⟩) with
            | ok count m₂ =>
                rw [Op.after_ok hend] at hbody
                exact hbody.returnResults _ _ _
            | error e m₂ =>
                rw [Op.after_error hend] at hbody hrun
                have hshown := hfailed e m₂ (hrun.framed hframed) hbody
                unfold Op.after at hshown
                dsimp only
                cases hfail : failed e host m₂ with
                | ok u m₃ =>
                    rw [hfail] at hshown
                    exact hshown.of_heap rfl rfl rfl rfl rfl rfl
                | error e' m₃ =>
                    rw [hfail] at hshown
                    exact hshown

theorem runHandler_keeps {handler raised : Value} (hhost : host.Keeps l) (hheeds : m.Heeds handler)
    (hm : m.Framed) (h : m.Equipped l) :
    (Op.after ((runHandler handler raised : Act ε Unit) host) m).Equipped l := by
  have hbegun := (Service.begun handler raised hheeds).isolated hm
  rw [Op.after_ok (runHandler_eq handler raised host m)]
  have hfailed : ∀ e (m' : Machine), m'.Framed → m'.Equipped l →
      (Op.after ((modify fun m => (m.errorValue e).2 : Act ScriptError Unit) host) m').Equipped l :=
    fun e m' _ h' => h'.errorValue e
  refine (invoke_keeps hhost ?_ ?_ hbegun.framed (h.beginHandling _ _) hfailed).endHandling _ _ _
  · rw [hbegun.base]
    exact hm
  · rw [beginHandling_eq]
    simp only [Array.size_push]
    omega

/-- A message handler may see an error. -/
theorem showHandler_keeps (e : ScriptError) : Keeps l (showHandler e : Act ε Unit) := by
  refine ⟨showHandler_lawful e, fun {host m} hhost hm h _ => ?_⟩
  by_cases hheeds : ∃ handler, m.Heeds handler
  · obtain ⟨handler, hheeds⟩ := hheeds
    rcases showHandler_heeds (ε := ε) e host hheeds with ⟨_, _, _, _, _, _, hrun⟩ | hrun
    · rw [Op.after_ok hrun]
      exact h.errorValue e
    · rw [Op.after, hrun]
      exact runHandler_keeps hhost hheeds hm (h.errorValue e)
  · rw [Op.after_ok (showHandler_idle fun handler hh => hheeds ⟨handler, hh⟩)]
    exact h.errorValue e

theorem callAt_keeps (hhost : host.Keeps l) (hbase : m.base ≤ position) (hlt : position < m.stack.size)
    (hm : m.Framed) (h : m.Equipped l) : (Op.after (callAt position wanted host) m).Equipped l :=
  invoke_keeps hhost hbase hlt hm h fun e _ hm' h' => (showHandler_keeps e).keeps hhost hm' h' trivial

theorem call_keeps (count : Nat) (wanted : Int) : Keeps l (call count wanted) := by
  refine ⟨call_lawful count wanted, fun {host m} hhost hm h _ => ?_⟩
  unfold Op.after
  rw [call, run_bind, run_lift, functionBelow_eq]
  cases hp : m.functionBelow? count with
  | none => exact h
  | some p => exact callAt_keeps hhost (functionBelow?_bounds hp).1 (functionBelow?_bounds hp).2 hm h

/-! ## Turns and cycles -/

/-- A turn, with the finalizer that it calls. -/
theorem finalize_keeps (slot : Nat) (hhost : host.Keeps l) (hm : m.Framed) (h : m.Equipped l) :
    (Op.after ((finalize slot : Act ε Unit) host) m).Equipped l := by
  have hturned := turned_isolated slot hm
  by_cases hf : ∃ f, (m.beginTurn slot).metafield (.userdata slot) .finalizer = .function f
  · obtain ⟨f, hf⟩ := hf
    have hprepared : (m.prepared slot f).Equipped l := (h.turned slot).of_heap rfl rfl rfl rfl rfl rfl
    have hsize : (m.prepared slot f).stack.size = m.stack.size + 2 := by
      obtain ⟨events, heq⟩ := turned_eq m slot
      simp only [prepared, pushGuard, push, Array.size_push, heq]
    have hbase : (m.prepared slot f).base ≤ m.stack.size := Nat.le_trans (Nat.le_of_eq hturned.base) hm
    have hframed : (m.prepared slot f).Framed := by
      unfold Framed
      omega
    rw [Op.after_ok (finalize_function hf)]
    exact (callAt_keeps hhost hbase (by omega) hframed hprepared).of_heap rfl rfl rfl rfl rfl rfl
  · rw [Op.after_ok (finalize_other fun f hg => hf ⟨f, hg⟩)]
    exact h.turned slot

theorem turns_keep (slots : List Nat) (hhost : host.Keeps l) (hm : m.Framed) (h : m.Equipped l) :
    (Op.after ((slots.forM finalize : Act ε PUnit) host) m).Equipped l := by
  induction slots generalizing m with
  | nil => exact h
  | cons slot rest ih =>
      rw [after_turns]
      exact ih ((finalize_runs (ε := ε) slot hhost.lawful hm).framed hm) (finalize_keeps slot hhost hm h)

theorem collect_keeps : Keeps l (collect : Act ε Nat) := by
  refine ⟨collect_lawful, fun {host m} hhost hm h _ => ?_⟩
  obtain ⟨m', hqueue, hcollect⟩ := collect_open (ε := ε) host h.opened
  rw [Op.after_ok hcollect]
  have hturns := turns_keep (ε := ε) m.cycle.1.reverse hhost (cycle_isolated hm).framed h.cycle
  exact Op.after_ok hqueue ▸ hturns

theorem collectIfDue_keeps : Keeps l (collectIfDue : Act ε Unit) :=
  .bind .get fun _ => .ite (.bind collect_keeps fun _ => .pure _) (.pure _)

/-! ## Allocation -/

theorem pushFunction_keeps (behaviour : Behaviour) (upvalues : Nat) (origin : Origin) :
    Keeps l (pushFunction behaviour upvalues origin : Act ε Unit) :=
  .bind collectIfDue_keeps fun _ => .modify (fun _ => leads_capture (.newFunction _)) fun _ h =>
    (h.allocates (Heap.allocates_newFunction h.sound _)).stack

theorem pushNative_keeps (code : NativeCode) (origin : Origin) : Keeps l (pushNative code origin : Act ε Unit) :=
  pushFunction_keeps _ _ _

theorem newUserdata_keeps (size : Nat) : Keeps l (newUserdata size : Act ε Address) :=
  .bind collectIfDue_keeps fun _ =>
    .modifyGet (fun _ => (leads_heap (.newUserdata size)).trans leads_push) fun _ h => (h.newUserdata size).push

/-! ## Lookups -/

theorem readChain_keeps (v key : Value) (fuel : Nat) : Keeps l (readChain v key fuel) := by
  induction fuel generalizing v with
  | zero => exact .lift (.fail _) (.fail _)
  | succ fuel ih =>
      refine ⟨readChain_lawful _ _ _, fun {host m} hhost hm h _ => ?_⟩
      unfold Op.after
      rw [readChain, run_bind, run_get]
      dsimp only
      cases m.readHop v key with
      | error f => exact h
      | ok hop =>
          cases hop with
          | done entry => exact h
          | follow next => exact (ih next).keeps hhost hm h trivial
          | handler slot =>
              simp only [run_bind, run_modify]
              have hsize : (((m.push (.function slot)).push v).push key).stack.size = m.stack.size + 3 := by
                simp only [push, Array.size_push]
              have hbase : (((m.push (.function slot)).push v).push key).base ≤ m.stack.size := hm
              have hcall : (Op.after (callAt m.stack.size 1 host)
                  (((m.push (.function slot)).push v).push key)).Equipped l :=
                callAt_keeps hhost hbase (by omega) (by unfold Framed; omega) h.push.push.push
              unfold Op.after at hcall
              cases hrun : callAt m.stack.size 1 host (((m.push (.function slot)).push v).push key) with
              | ok u m₁ =>
                  rw [hrun] at hcall
                  exact hcall.truncate
              | error e m₁ =>
                  rw [hrun] at hcall
                  exact hcall

theorem getTable_keeps (i : StackIndex) : Keeps l (getTable i) :=
  .bind .get fun _ => .bind (readChain_keeps _ _ _) fun _ =>
    .bind (.modify (fun _ => leads_pop.trans leads_push) fun _ h => h.pop.push) fun _ => .pure _

theorem getField_keeps (i : StackIndex) (name : String) : Keeps l (getField i name) :=
  .bind .get fun _ => .bind (.modify (fun _ => leads_pushText) fun _ h => h.pushText) fun _ => getTable_keeps _

theorem followPath_keeps (path : List String) : Keeps l (followPath path) := by
  induction path with
  | nil => exact .pure _
  | cons segment rest ih =>
      exact .bind (getField_keeps _ _) fun _ =>
        .bind (.lift (Op.remove_lawful _) (Op.remove_keeps _)) fun _ => ih

theorem getGlobal_keeps (name : String) : Keeps l (getGlobal name) :=
  .bind .get fun _ => .bind (.modify (fun _ => leads_pushAt) fun _ h => h.pushAt) fun _ =>
    .bind (.attempt (followPath_keeps _)) fun result => by
      cases result with
      | ok _ => exact .bind .get fun _ => .pure _
      | error _ => exact .bind (.modify (fun _ => leads_setTop) fun _ h => h.setTop) fun _ => .throw _

end Act

end ScriptHost
