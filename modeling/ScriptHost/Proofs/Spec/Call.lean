import ScriptHost.Proofs.Lawful.Collect
import ScriptHost.Proofs.Spec

/-! # What calls leave on the stack

A call keeps everything below the function, and puts the results in its place. Showing an error to a
message handler, giving finalizers their turns and running a cycle leave the stack as it was.
-/

namespace ScriptHost

open Machine

namespace Machine

variable {m m' m'' : Machine} {b p : Nat} {below rest : List Value} {v : Value} {f : Frame}
  {frames : List Frame} {wanted : Int} {count : Nat}

/-- The results of a call lie in the place of the function and its arguments. -/
def Returned (b : Nat) (below : List Value) (wanted : Int) (m : Machine) : Prop :=
  ∃ results, Laid b (below ++ results) m ∧ (0 ≤ wanted → results.length = wanted)

/-- A frame keeps its function and all that lies below it. -/
theorem Runs.over (h : Runs [] (m.enterFrame f) m') (hl : Laid b (below ++ v :: rest) m)
    (hf : f.function = below.length) (hclosed : m'.closed = m.closed) :
    (below ++ [v]) <+: m'.stack.toList ∧ m'.frames = f :: m.frames := by
  have hsize := hl.size
  simp only [List.length_append, List.length_cons] at hsize
  have hframed : (m.enterFrame f).Framed := by
    change f.function + 1 ≤ m.stack.size
    omega
  have hkept := h.isolated hframed hclosed
  have hbase : (m.enterFrame f).base = below.length + 1 := congrArg (· + 1) hf
  refine ⟨?_, hkept.frames⟩
  rw [List.prefix_iff_getElem?]
  intro i hi
  have hsame := hkept.stack i (by rw [hbase]; simpa using hi)
  rw [Array.getElem?_toList, hsame, ← Array.getElem?_toList]
  change m.stack.toList[i]? = _
  rw [hl.stack, List.append_cons, List.getElem?_append_left hi, List.getElem?_eq_getElem hi]

theorem frames_resize : (m.resize p).frames = m.frames := by
  unfold resize
  split <;> rfl

theorem closed_resize : (m.resize p).closed = m.closed := by
  unfold resize
  split <;> rfl

theorem laid_resize {s t : List Value} (h : m.stack.toList = s ++ t) (hn : s.length ≤ p) :
    ∃ results, (m.resize p).stack.toList = s ++ results ∧ s.length + results.length = p := by
  have hsize : m.stack.size = s.length + t.length := by
    rw [← Array.length_toList, h, List.length_append]
  unfold resize
  split
  · rename_i hle
    refine ⟨t.take (p - s.length), ?_, ?_⟩
    · rw [Array.toList_shrink, h, List.take_append, List.take_of_length_le hn]
    · rw [List.length_take]
      omega
  · rename_i hlt
    refine ⟨t ++ List.replicate (p - m.stack.size) .nil, ?_, ?_⟩
    · rw [Array.toList_append, Array.toList_replicate, h, List.append_assoc]
    · rw [List.length_append, List.length_replicate]
      omega

/-- Returning puts results in the place of the function. -/
theorem laid_returnResults (wanted : Int) (count : Nat) (hover : below <+: m.stack.toList) (hframes : m.frames = f :: frames) :
    (m.returnResults below.length wanted count).frames = frames ∧
    ∃ results, (m.returnResults below.length wanted count).stack.toList = below ++ results ∧
      (0 ≤ wanted → results.length = wanted) := by
  have hmoved : ∀ (m : Machine) (n : Nat), below <+: m.stack.toList →
      ∃ moved, (m.moveDown below.length n).stack.toList = below ++ moved := by
    intro m n hover
    refine ⟨(m.stack.extract (m.stack.size - n) m.stack.size).toList, ?_⟩
    rw [moveDown, Array.toList_append, Array.toList_shrink, ← List.prefix_iff_eq_take.mp hover]
  have hstack : below <+: m.forgetDecoration.leaveFrame.stack.toList := by
    rw [forgetDecoration_eq]
    exact hover
  have hleft : m.forgetDecoration.leaveFrame.frames = frames := by
    rw [leaveFrame, forgetDecoration_eq, hframes, List.tail_cons]
  unfold returnResults
  dsimp only
  split
  · rename_i hneg
    obtain ⟨moved, hmoved⟩ := hmoved _ _ hstack
    exact ⟨hleft, moved, hmoved, by omega⟩
  · obtain ⟨moved, hmoved⟩ := hmoved _ _ hstack
    obtain ⟨results, hresults, hlength⟩ := laid_resize hmoved (Nat.le_add_right _ wanted.toNat)
    refine ⟨?_, results, hresults, by omega⟩
    rw [frames_resize]
    exact hleft

theorem closed_returnResults : (m.returnResults p wanted count).closed = m.closed := by
  have hguard : m.forgetDecoration.closed = m.closed := by rw [forgetDecoration_eq]
  unfold returnResults
  dsimp only
  split
  · exact hguard
  · rw [closed_resize]
    exact hguard

end Machine

namespace Act

variable {host : Host} {m m' : Machine} {b : Nat} {below rest : List Value} {v : Value}
  {wanted : Int} {failed : ScriptError → Act ScriptError Unit}

/-! ## Calls -/

/-- Nothing below the function to call changes. -/
theorem callee_laid {slot : Nat} (hl : Laid b (below ++ v :: rest) m)
    (h : callee below.length m = .ok slot m') :
    m'.closed = m.closed ∧ ∃ w rest', Laid b (below ++ w :: rest') m' := by
  rcases callee_spec h with ⟨rfl, -⟩ | rfl
  · exact ⟨rfl, _, _, hl⟩
  · exact ⟨rfl, _, _, hl.insertAt⟩

/-- A call that succeeds leaves results in the place of the function and its arguments, and one that
    fails leaves what lies below them. -/
theorem invoke_laid (hhost : host.Lawful) (hl : Laid b (below ++ v :: rest) m)
    (hfailed : ∀ e, (failed e).Lawful) (htotal : ∀ e, (failed e).Total)
    (hclosed : (Op.after (invoke failed below.length wanted host) m).closed = m.closed) :
    Ended (fun _ => Returned b below wanted) (Over b below) (invoke failed below.length wanted host m) := by
  unfold Op.after at hclosed
  rw [invoke_eq] at hclosed ⊢
  by_cases hlimit : m.atLimit = true
  · rw [if_pos hlimit]
    exact hl.over
  · rw [if_neg hlimit] at hclosed ⊢
    cases hc : callee below.length m with
    | error e m₁ =>
        dsimp only
        rw [callee_error hc]
        exact hl.over
    | ok slot m₁ =>
        obtain ⟨hc₁, w, rest', hl₁⟩ := callee_laid hl hc
        rw [hc] at hclosed
        dsimp only at hclosed ⊢
        cases hslot : m₁.heap.function? slot with
        | none => exact hl₁.over
        | some f =>
            rw [hslot] at hclosed
            dsimp only at hclosed ⊢
            have hrun := hhost f.body.behaviour (m₁.enterFrame ⟨below.length, f.body.origin⟩)
            have hframed : (m₁.enterFrame ⟨below.length, f.body.origin⟩).Framed := by
              have := hl₁.size
              change below.length + 1 ≤ m₁.stack.size
              simp only [List.length_append, List.length_cons] at this
              omega
            cases hbody : host.enter f.body.behaviour
                (m₁.enterFrame ⟨below.length, f.body.origin⟩) with
            | ok count m₂ =>
                rw [Op.after_ok hbody] at hrun
                rw [hbody] at hclosed
                dsimp only at hclosed ⊢
                rw [closed_returnResults, ← hc₁] at hclosed
                obtain ⟨hkept, hframes⟩ := (hrun hframed).over hl₁ rfl hclosed
                obtain ⟨hback, results, hstack, hlength⟩ := laid_returnResults wanted count
                  ((List.prefix_append below [w]).trans hkept) hframes
                exact ⟨results, ⟨by rw [Machine.base, hback]; exact hl₁.base, hstack⟩, hlength⟩
            | error e m₂ =>
                rw [Op.after_error hbody] at hrun
                have hshown := hfailed e host hhost m₂
                obtain ⟨u, m₃, hend⟩ := htotal e host m₂
                rw [Op.after_ok hend] at hshown
                rw [hbody] at hclosed
                simp only [hend] at hclosed ⊢
                obtain ⟨hkept, hframes⟩ := ((hrun.trans hshown) hframed).over hl₁ rfl
                  (hclosed.trans hc₁.symm)
                refine ⟨?_, (List.prefix_append below [w]).trans hkept⟩
                rw [Machine.base, leaveFrame, hframes, List.tail_cons]
                exact hl₁.base

theorem callAt_laid (wanted : Int) (hhost : host.Lawful) (hl : Laid b (below ++ v :: rest) m)
    (hclosed : (Op.after (callAt below.length wanted host) m).closed = m.closed) :
    Ended (fun _ => Returned b below wanted) (Over b below) (callAt below.length wanted host m) :=
  invoke_laid hhost hl showHandler_lawful showHandler_total hclosed

/-! ## Message handlers -/

theorem callHandler_laid (hhost : host.Lawful) (hl : Laid b (below ++ v :: rest) m)
    (hclosed : (Op.after (callHandler below.length host) m).closed = m.closed) :
    Ended (fun _ => Returned b below 1) (Over b below) (callHandler below.length host m) :=
  invoke_laid hhost hl (fun _ => .modify fun _ => leads_errorValue) (fun _ => .modify _) hclosed

theorem laid_errorValue {s : List Value} {e : ScriptError} (hl : Laid b s m) :
    Laid b s (m.errorValue e).2 := hl.of_eq rfl rfl

theorem laid_endHandling {s : List Value} {raised : Value} {answer : Option Value}
    (hover : Over b s m) : Laid b s (m.endHandling s.length raised answer) := by
  obtain ⟨outcome, strings, houtcome⟩ := m.handlerOutcome_eq answer
  rw [endHandling_eq, houtcome]
  exact hover.truncate.of_eq rfl rfl

theorem closed_endHandling {position : Nat} {raised : Value} {answer : Option Value} :
    (m.endHandling position raised answer).closed = m.closed := by
  obtain ⟨outcome, strings, houtcome⟩ := m.handlerOutcome_eq answer
  rw [endHandling_eq, houtcome]

/-- A message handler works above what was on the stack. -/
theorem runHandler_laid {ε : Type} {handler raised : Value} {s : List Value} (hhost : host.Lawful)
    (hl : Laid b s m)
    (hclosed : (Op.after ((runHandler handler raised : Act ε Unit) host) m).closed = m.closed) :
    Laid b s (Op.after ((runHandler handler raised : Act ε Unit) host) m) := by
  rw [Op.after_ok (runHandler_eq handler raised host m)] at hclosed ⊢
  rw [hl.size] at hclosed ⊢
  have hpushed : Laid b (s ++ handler :: [raised]) (m.beginHandling handler raised) := by
    have hplain := (hl.push (v := handler)).push (v := raised)
    rw [List.append_assoc] at hplain
    rw [beginHandling_eq]
    exact hplain.of_eq rfl rfl
  have hopen : (m.beginHandling handler raised).closed = m.closed := by rw [beginHandling_eq]
  rw [closed_endHandling] at hclosed
  have hcall := callHandler_laid hhost hpushed (hclosed.trans hopen.symm)
  apply laid_endHandling
  unfold Op.after
  cases hc : callHandler s.length host (m.beginHandling handler raised) with
  | ok u m₁ =>
      rw [hc] at hcall
      obtain ⟨results, hreturned, -⟩ := hcall
      exact hreturned.over
  | error e m₁ =>
      rw [hc] at hcall
      exact hcall

/-- What a message handler leaves is taken off the stack again. -/
theorem showHandler_spec {ε : Type} (e : ScriptError) (s : List Value) (E : Machine → Prop) :
    Spec (Laid b s) (showHandler e : Act ε Unit) (fun _ => Laid b s) E := by
  refine .of_cases (showHandler_lawful e) fun {host m} hhost _ hl hclosed => ?_
  by_cases h : ∃ handler, m.Heeds handler
  · obtain ⟨handler, h⟩ := h
    rcases showHandler_heeds (ε := ε) e host h with ⟨_, _, _, _, _, _, hrun⟩ | hrun
    · rw [hrun]
      exact laid_errorValue hl
    · rw [Op.after, hrun] at hclosed
      have hlaid := runHandler_laid hhost (laid_errorValue hl) hclosed
      rw [Op.after_ok (runHandler_eq _ _ _ _)] at hlaid
      rw [hrun, runHandler_eq]
      exact hlaid
  · rw [showHandler_idle fun handler hh => h ⟨handler, hh⟩]
    exact laid_errorValue hl

/-! ## Calls from a frame -/

/-- A function with its arguments is found below them. -/
theorem functionBelow?_laid {args : List Value} (hl : Laid b (below ++ v :: args) m)
    (hb : b ≤ below.length) : m.functionBelow? args.length = some below.length := by
  have hlength : (below ++ v :: args).length = below.length + args.length + 1 := by
    simp only [List.length_append, List.length_cons]
    omega
  rw [functionBelow?, hl.top, hl.base, hlength, if_pos (by omega)]
  congr 1
  omega

theorem call_spec {args : List Value} (hb : b ≤ below.length) :
    Spec (Laid b (below ++ v :: args)) (call args.length wanted)
      (fun _ => Returned b below wanted) (Over b below) := by
  have hcall : ∀ {host : Host} {m : Machine}, Laid b (below ++ v :: args) m →
      call args.length wanted host m = callAt below.length wanted host m := by
    intro host m hl
    rw [call, run_bind, run_lift, functionBelow_eq, functionBelow?_laid hl hb]
  refine .of_cases (call_lawful _ _) fun {host m} hhost _ hl hc => ?_
  unfold Op.after at hc
  rw [hcall hl] at hc ⊢
  exact callAt_laid wanted hhost hl hc

theorem laid_failProtected {e : ScriptError} {depth : Nat} (hover : Over b below m)
    (hframes : m.frames.length ≤ depth) :
    ∃ v, Laid b (below ++ [v]) (m.failProtected depth below.length e).2 := by
  have hvalue : ∀ (m : Machine) (final : ScriptError), Over b below m →
      Laid b (below ++ [(m.errorValue final).1])
        (((m.errorValue final).2.truncate below.length).push (m.errorValue final).1) :=
    fun m final h => (show Over b below (m.errorValue final).2 from h.of_eq rfl rfl).truncate.push
  have hpop : m.popGuard.truncateFrames depth = m.popGuard := truncateFrames_eq hframes
  unfold failProtected
  rw [hpop]
  exact ⟨_, hvalue _ _ (hover.of_eq rfl rfl)⟩

/-- When a protected call fails the error value takes the place of the function. -/
theorem protectedCall_spec {args : List Value} {handler : Option StackIndex} (hb : b ≤ below.length) :
    Spec (Laid b (below ++ v :: args)) (protectedCall args.length wanted handler)
      (fun _ => Returned b below wanted) (fun m => ∃ e, Laid b (below ++ [e]) m) := by
  refine .of_cases (protectedCall_lawful _ _ _) fun {host m} hhost hm hl hclosed => ?_
  unfold Op.after at hclosed
  rw [protectedCall_eq (functionBelow?_laid hl hb)] at hclosed ⊢
  have hlt : below.length < m.stack.size := by
    rw [hl.size, List.length_append, List.length_cons]
    omega
  have hrun := callAt_leads (m := m.pushGuard { handler := handler.map m.value }) wanted
    hhost (hl.base.symm ▸ hb) hlt hm
  have hlaid := callAt_laid (m := m.pushGuard { handler := handler.map m.value }) wanted
    hhost (hl.of_eq rfl rfl)
  cases h : callAt below.length wanted host (m.pushGuard { handler := handler.map m.value }) with
  | ok u m₁ =>
      rw [h] at hclosed hlaid
      rw [Op.after_ok h] at hlaid
      obtain ⟨results, hresults, hlength⟩ := hlaid hclosed
      exact ⟨results, hresults.of_eq rfl rfl, hlength⟩
  | error e m₁ =>
      rw [h] at hclosed hlaid
      rw [Op.after_error h] at hlaid hrun
      obtain ⟨u, m₂, hshow⟩ := showHandler_total (ε := ScriptError) e host m₁
      have hshown := (showHandler_lawful (ε := ScriptError) e).run_ok hhost (hrun.framed hm) hshow
      simp only [hshow] at hclosed ⊢
      obtain ⟨hc₁, hc₂⟩ := hrun.closed_between hshown hm hclosed
      have hover := hlaid hc₁
      have hover₂ : Over b below m₂ := by
        have hsame := (showHandler_spec (ε := ScriptError) e m₁.stack.toList (fun _ => True)).ok hhost
          (hrun.framed hm) ⟨hover.base, rfl⟩ hshow hc₂
        exact ⟨hsame.base, hsame.stack.symm ▸ hover.stack⟩
      refine laid_failProtected hover₂ (Nat.le_of_eq ?_)
      exact congrArg List.length ((hrun.trans hshown).isolated hm hclosed).frames

/-! ## Turns and cycles -/

variable {ε : Type} {s : List Value} {slot : Nat}

/-- Whatever a finalizer does to its own frame, the stack is as it was when its turn ends. -/
theorem finalize_laid (hhost : host.Lawful) (hm : m.Framed) (hl : Laid b s m)
    (hclosed : (Op.after ((finalize slot : Act ε Unit) host) m).closed = m.closed) :
    Laid b s (Op.after ((finalize slot : Act ε Unit) host) m) := by
  obtain ⟨events, hturned⟩ := turned_eq m slot
  have hl₁ : Laid b s (m.turned slot) := hl.of_eq (by rw [hturned]) (by rw [hturned])
  by_cases hf : ∃ f, (m.beginTurn slot).metafield (.userdata slot) .finalizer = .function f
  · obtain ⟨f, hf⟩ := hf
    rw [Op.after_ok (finalize_function hf)] at hclosed ⊢
    have hpushed : Laid b (s ++ .function f :: [.userdata slot]) (m.prepared slot f) := by
      have hpushed := (hl₁.push (v := .function f)).push (v := .userdata slot)
      rw [List.append_assoc] at hpushed
      exact hpushed.of_eq rfl rfl
    have hc : (m.prepared slot f).closed = m.closed := by
      change (m.turned slot).closed = m.closed
      rw [hturned]
    rw [hl.size] at hclosed ⊢
    have hlaid := callAt_laid 0 hhost hpushed (hclosed.trans hc.symm)
    have hover : Over b s (Op.after (callAt s.length 0 host) (m.prepared slot f)) := by
      unfold Op.after
      cases h : callAt s.length 0 host (m.prepared slot f) with
      | ok u m' =>
          rw [h] at hlaid
          obtain ⟨results, hresults, -⟩ := hlaid
          exact hresults.over
      | error e m' =>
          rw [h] at hlaid
          exact hlaid
    have hlt : s.length < (m.prepared slot f).stack.size := by
      rw [hpushed.size, List.length_append]
      simp
    have hbase : (m.prepared slot f).base ≤ s.length := by
      rw [hpushed.base, ← hl.base, ← hl.size]
      exact hm
    have hframed : (m.prepared slot f).Framed := Nat.le_trans hbase (Nat.le_of_lt hlt)
    have hkept := (callAt_leads 0 hhost hbase hlt hframed).isolated hframed
      (hclosed.trans hc.symm)
    rw [endTurn, truncateFrames_eq]
    · exact Over.truncate (hover.of_eq rfl rfl)
    · change (Op.after (callAt s.length 0 host) (m.prepared slot f)).frames.length ≤ _
      rw [hkept.frames]
      change (m.turned slot).frames.length ≤ _
      rw [hturned]
      exact Nat.le_refl _
  · rw [Op.after_ok (finalize_other fun f h => hf ⟨f, h⟩)]
    exact hl₁

theorem turns_laid (slots : List Nat) (hhost : host.Lawful) (hm : m.Framed) (hl : Laid b s m)
    (hclosed : (Op.after ((slots.forM finalize : Act ε PUnit) host) m).closed = m.closed) :
    Laid b s (Op.after ((slots.forM finalize : Act ε PUnit) host) m) := by
  induction slots generalizing m with
  | nil => exact hl
  | cons slot rest ih =>
      rw [after_turns] at hclosed ⊢
      have hrun := finalize_runs (ε := ε) slot hhost hm
      obtain ⟨hfirst, hrest⟩ := hrun.closed_between (turns_runs _ hhost (hrun.framed hm)) hm hclosed
      exact ih (hrun.framed hm) (finalize_laid hhost hm hl hfirst) hrest

theorem collect_spec (s : List Value) (E : Machine → Prop) :
    Spec (Laid b s) (collect : Act ε Nat) (fun _ => Laid b s) E := by
  refine .of_cases collect_lawful fun {host m} hhost hm hl hclosed => ?_
  cases h : m.closed with
  | true =>
      rw [collect_closed h]
      exact hl
  | false =>
      obtain ⟨m', hrun, hcollect⟩ := collect_open (ε := ε) host h
      rw [Op.after_ok hcollect] at hclosed
      rw [hcollect]
      have hcycle := cycle_isolated hm
      obtain ⟨heap, events, heq⟩ := m.cycle_eq
      have hl₁ : Laid b s m.cycle.2.2 := hl.of_eq (by rw [heq]) (by rw [heq])
      have hlaid := turns_laid (ε := ε) m.cycle.1.reverse hhost hcycle.framed hl₁
      change (Op.after ((finalizeAll m.cycle.1 : Act ε Unit) host) m.cycle.2.2).closed = _ →
        Laid b s (Op.after ((finalizeAll m.cycle.1 : Act ε Unit) host) m.cycle.2.2) at hlaid
      rw [Op.after_ok hrun] at hlaid
      exact hlaid (hclosed.trans hcycle.closed.symm)

theorem collectIfDue_spec (s : List Value) (E : Machine → Prop) :
    Spec (Laid b s) (collectIfDue : Act ε Unit) (fun _ => Laid b s) E :=
  .get_bind collectIfDue_lawful fun _ _ hl =>
    .ite (.bind ((collect_spec s E).pre fun _ h => h ▸ hl) fun _ => .pure fun _ => id)
      (.pure fun _ h => h ▸ hl)

/-! ## Allocation -/

/-- One more value lies on top. -/
def Pushed (b : Nat) (s : List Value) (m : Machine) : Prop := ∃ v, Laid b (s ++ [v]) m

theorem Pushed.over (h : Pushed b s m) : Over b s m := by
  obtain ⟨v, hl⟩ := h
  exact hl.over

theorem newTable_spec (s : List Value) (E : Machine → Prop) :
    Spec (Laid b s) (newTable : Act ε Unit) (fun _ => Pushed b s) E := by
  refine .bind (collectIfDue_spec s E) fun _ =>
    .modify (fun _ => (leads_heap .newTable).trans leads_push) fun m _ hl => ?_
  have hheap : Laid b s { m with heap := m.heap.newTable.2 } := hl.of_eq rfl rfl
  exact ⟨_, hheap.push⟩

/-- A function takes the place of the values that it captures. -/
theorem pushFunction_spec (behaviour : Behaviour) {upvalues : Nat} (origin : Origin) (s : List Value) {t : List Value}
    (hb : b ≤ s.length) (hn : upvalues = t.length) (E : Machine → Prop) :
    Spec (Laid b (s ++ t)) (pushFunction behaviour upvalues origin : Act ε Unit) (fun _ => Pushed b s) E := by
  refine .bind (collectIfDue_spec (s ++ t) E) fun _ =>
    .modify (fun _ => leads_capture (.newFunction _)) fun m _ hl => ?_
  have hcut : ∀ h : Heap Native,
      Laid b s ({ m with heap := h }.truncate (m.stack.size - min upvalues m.top)) := by
    intro h
    have hover : Over b s { m with heap := h } := hl.over.of_eq rfl rfl
    refine hover.truncate_eq ?_
    rw [hl.top, hl.size, List.length_append]
    omega
  exact ⟨_, (hcut _).push⟩

theorem pushNative_spec (code : NativeCode) {origin : Origin} (s : List Value) (E : Machine → Prop) :
    Spec (Laid b s) (pushNative code origin : Act ε Unit) (fun _ => Pushed b s) E := by
  refine .of_cases (pushNative_lawful code origin) fun hhost hm hl hc => ?_
  have hspec : Spec (Laid b (s ++ [])) (pushFunction (.code code) 0 origin : Act ε Unit) (fun _ => Pushed b s) E :=
    pushFunction_spec _ origin s (hl.base_le hm) rfl E
  exact hspec.ended hhost hm (by rwa [List.append_nil]) hc

end Act

end ScriptHost
