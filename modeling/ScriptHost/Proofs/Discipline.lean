import ScriptHost.Proofs.Invocation
import ScriptHost.Proofs.States

/-! # Call discipline

Whatever the function that is called does, a call gives the frames and the protected calls back that
were there before it, and changes nothing below the function. Results, or the error value of a
protected call, take the place of the function and its arguments. No function is entered beyond the
limit on nested calls.
-/

namespace ScriptHost

namespace Machine

variable {m m' : Machine} {below : List Value} {w : Value} {f : Frame} {frames : List Frame}
  {wanted : Int} {count n position : Nat} {e : ScriptError}

/-! ## Results -/

/-- The values of the running frame. -/
def own (m : Machine) : List Value := m.stack.toList.drop m.base

/-- The last values, so many of them or all. -/
def latest (n : Nat) (vs : List Value) : List Value := vs.drop (vs.length - n)

/-- Values cut or filled up to a number of them. -/
def fitted (n : Nat) (vs : List Value) : List Value :=
  vs.take n ++ List.replicate (n - vs.length) .nil

theorem toList_resize : (m.resize n).stack.toList = fitted n m.stack.toList := by
  unfold resize fitted
  split
  · simp [Nat.sub_eq_zero_of_le ‹_›]
  · have hle : m.stack.toList.length ≤ n := by simp; omega
    simp [List.take_of_length_le hle]

theorem fitted_below (below vs : List Value) (n : Nat) :
    fitted (below.length + n) (below ++ vs) = below ++ fitted n vs := by
  have hbelow : below.take (below.length + n) = below := List.take_of_length_le (by omega)
  simp [fitted, List.take_append, hbelow, Nat.add_sub_add_left]

theorem toList_moveDown (h : below <+: m.stack.toList) :
    (m.moveDown below.length n).stack.toList = below ++ latest n m.stack.toList := by
  have hall : (m.stack.toList.drop (m.stack.size - n)).length ≤ m.stack.size - (m.stack.size - n) := by
    simp
  rw [moveDown, Array.toList_append, Array.toList_shrink, ← List.prefix_iff_eq_take.mp h,
    Array.toList_extract, List.extract_eq_take_drop, List.take_of_length_le hall, latest,
    Array.length_toList]

/-- The last values of a frame that starts above some others. -/
theorem latest_min (vs : List Value) (b n : Nat) (hb : b ≤ vs.length) :
    latest (min n (vs.length - b)) vs = latest n (vs.drop b) := by
  simp only [latest, List.drop_drop, List.length_drop]
  congr 1
  omega

/-- Returning replaces the function and what lies above it by the last values of the frame. -/
theorem toList_returnResults (hover : (below ++ [w]) <+: m.stack.toList)
    (hframes : m.frames = f :: frames) (hf : f.function = below.length) :
    (m.returnResults below.length wanted count).stack.toList =
      below ++ if wanted < 0 then latest count m.own else fitted wanted.toNat (latest count m.own) := by
  have hbase : m.base = below.length + 1 := by simp [base, hframes, Frame.base, hf]
  have hle : below.length + 1 ≤ m.stack.toList.length := by simpa using hover.length_le
  have hkept : below <+: m.stack.toList := (List.prefix_append below [w]).trans hover
  -- Neither dropping a decoration nor leaving the frame touches the stack.
  have hstack : m.forgetDecoration.leaveFrame.stack = m.stack := by
    rw [forgetDecoration_eq]
    rfl
  have hframes' : m.forgetDecoration.frames = f :: frames := by rw [forgetDecoration_eq, hframes]
  have hsize : m.forgetDecoration.stack.size = m.stack.toList.length := by
    rw [forgetDecoration_eq, Array.length_toList]
  have hmoved : ∀ n, (m.forgetDecoration.leaveFrame.moveDown below.length n).stack.toList =
      below ++ latest n m.stack.toList := by
    intro n
    rw [toList_moveDown (hstack ▸ hkept), hstack]
  unfold returnResults own
  simp only [hframes', Frame.base, hf, hsize, hbase]
  split
  · rw [hmoved, latest_min _ _ _ hle]
  · rw [toList_resize, hmoved, latest_min _ _ _ hle, fitted_below]

/-! ## Where calls happen -/

/-- What a call gives back: the frames, and the protected calls with their handlers. -/
structure Resumed (m m' : Machine) : Prop where
  frames : m'.frames = m.frames
  handlers : m'.guards.map (·.handler) = m.guards.map (·.handler)

theorem Isolated.resumed (h : Isolated m m') : Resumed m m' := ⟨h.frames, h.handlers⟩

/-- A function with some arguments, and what lies below it. -/
theorem laid_of_functionBelow (h : m.functionBelow? count = some position) :
    ∃ v args, Laid m.base (m.stack.toList.take position ++ v :: args) m ∧ args.length = count ∧
      m.base ≤ position ∧ (m.stack.toList.take position).length = position := by
  obtain ⟨hbase, hlt⟩ := Act.functionBelow?_bounds h
  have hlt' : position < m.stack.toList.length := by simpa using hlt
  refine ⟨m.stack.toList[position], m.stack.toList.drop (position + 1), ⟨rfl, ?_⟩, ?_, hbase, ?_⟩
  · rw [← List.drop_eq_getElem_cons hlt', List.take_append_drop]
  · unfold functionBelow? top at h
    split at h
    · obtain rfl := Option.some.inj h
      simp
      omega
    · cases h
  · simp
    omega

/-! ## Error values -/

theorem errorValue_again (hm : m.strings.Sound) :
    ((m.errorValue e).2.errorValue e).1 = (m.errorValue e).1 := by
  have hagain : ∀ bytes : Bytes,
      ((m.strings.intern bytes).2.intern bytes).1 = (m.strings.intern bytes).1 :=
    fun bytes => by rw [StringPool.intern_again (StringPool.intern_sound hm) StringPool.intern_found]
  cases e with
  | value v => rfl
  | runtime | stackOverflow | errorInHandler => simp [errorValue, ScriptError.toValue, hagain]

theorem errorValue_sound (hm : m.strings.Sound) : (m.errorValue e).2.strings.Sound := by
  cases e with
  | value v => exact hm
  | runtime | stackOverflow | errorInHandler => exact StringPool.intern_sound hm

/-- What a protected call that fails puts on top is the value of its error. -/
theorem failProtected_back {depth : Nat} (hm : m.strings.Sound) :
    (m.failProtected depth position e).2.stack.back? =
      some ((m.failProtected depth position e).2.errorValue (m.failProtected depth position e).1).1 := by
  have hvalue : ∀ (m' : Machine) (final : ScriptError), m'.strings.Sound →
      (((m'.errorValue final).2.truncate position).push (m'.errorValue final).1).stack.back? =
        some ((m'.errorValue final).2.errorValue final).1 := by
    intro m' final hsound
    rw [errorValue_again hsound, push, Array.back?_push]
  exact hvalue _ _ (errorValue_sound (m := m.popGuard.truncateFrames depth) hm)

end Machine

open Machine

/-! ## Functions that come to an end -/

namespace Act

variable {host : Host} {m m' : Machine} {b position count : Nat} {below args : List Value} {v : Value}
  {wanted : Int} {failed : ScriptError → Act ScriptError Unit}

/-- Below the limits, the function at a stack position ran to its end and returned so many values. -/
inductive Completed (host : Host) (position : Nat) (m : Machine) : Nat → Machine → Prop where
  | intro {slot called f count last} : m.atLimit = false → callee position m = .ok slot called →
      called.heap.function? slot = some f →
      host.enter f.body.behaviour (called.enterFrame ⟨position, f.body.origin⟩) = .ok count last →
      Completed host position m count last

/-- In the place of the function at a stack position are the last values of its frame, as many as it
    returned or as there are, cut or filled up to the number wanted unless that is negative. -/
def Replaced (host : Host) (position : Nat) (wanted : Int) (m m' : Machine) : Prop :=
  ∃ count last, Completed host position m count last ∧
    m'.stack.toList = m.stack.toList.take position ++
      if wanted < 0 then latest count last.own else fitted wanted.toNat (latest count last.own)

/-- A call is done when its function has come to an end. -/
theorem invoke_ok (h : invoke failed position wanted host m = .ok () m') :
    ∃ count last, Completed host position m count last ∧
      m' = last.returnResults position wanted count := by
  rw [invoke_eq] at h
  split at h
  · cases h
  · rename_i hlimit
    cases hc : callee position m with
    | error e called => simp [hc] at h
    | ok slot called =>
        cases hf : called.heap.function? slot with
        | none => simp [hc, hf] at h
        | some f =>
            cases hrun : host.enter f.body.behaviour (called.enterFrame ⟨position, f.body.origin⟩) with
            | ok count last =>
                simp only [hc, hf, hrun, EStateM.Result.ok.injEq, true_and] at h
                exact ⟨count, last, .intro (by simpa using hlimit) hc hf hrun, h.symm⟩
            | error e last =>
                simp only [hc, hf, hrun] at h
                cases hfailed : failed e host last <;> simp [hfailed] at h

/-- What a function that came to an end did is a run above its own position. -/
theorem Completed.runs {last : Machine} (h : Completed host position m count last)
    (hhost : host.Lawful) (hlt : position < m.stack.size) :
    ∃ slot called f, callee position m = .ok slot called ∧ f.function = position ∧
      (called.enterFrame f).Framed ∧ Runs [] (called.enterFrame f) last := by
  obtain @⟨slot, called, f, _, _, -, hc, -, hrun⟩ := h
  have hsize : m.stack.size ≤ called.stack.size := by
    rcases callee_spec hc with ⟨rfl, -⟩ | rfl
    · exact Nat.le_refl _
    · rw [← Array.length_toList, ← Array.length_toList, insertAt, toList_insertIdxIfInBounds]
      exact List.length_le_length_insertIdx
  have hframed : (called.enterFrame ⟨position, f.body.origin⟩).Framed := Nat.lt_of_lt_of_le hlt hsize
  exact ⟨slot, called, _, hc, rfl, hframed, Op.after_ok hrun ▸ hhost _ _ hframed⟩

/-- The frame of a function that has come to an end is still active, above what lay below the
    function. -/
theorem Completed.over {last : Machine} (h : Completed host below.length m count last)
    (hhost : host.Lawful) (hl : Laid b (below ++ v :: args) m) (hclosed : last.closed = m.closed) :
    (∃ w, (below ++ [w]) <+: last.stack.toList) ∧
      ∃ f frames, last.frames = f :: frames ∧ f.function = below.length := by
  have hlt : below.length < m.stack.size := by
    rw [hl.size, List.length_append, List.length_cons]
    omega
  obtain ⟨slot, called, f, hc, hf, -, hruns⟩ := h.runs hhost hlt
  obtain ⟨hc₁, w, rest, hl₁⟩ := callee_laid hl hc
  obtain ⟨hkept, hframes⟩ := hruns.over hl₁ hf (hclosed.trans hc₁.symm)
  exact ⟨⟨w, hkept⟩, f, _, hframes, hf⟩

theorem invoke_replaced (hhost : host.Lawful) (hl : Laid b (below ++ v :: args) m)
    (h : invoke failed below.length wanted host m = .ok () m') (hclosed : m'.closed = m.closed) :
    Replaced host below.length wanted m m' := by
  obtain ⟨count, last, hcompleted, rfl⟩ := invoke_ok h
  rw [closed_returnResults] at hclosed
  obtain ⟨⟨w, hover⟩, f, frames, hframes, hf⟩ := hcompleted.over hhost hl hclosed
  refine ⟨count, last, hcompleted, ?_⟩
  rw [toList_returnResults hover hframes hf, hl.stack, List.take_left]

end Act

/-! ## The limit on nested calls -/

/-- Hosts that run functions alike as long as calls are nested no deeper than allowed. -/
def Host.AgreeWithin (host host' : Host) : Prop :=
  ∀ b (m : Machine), m.depth ≤ m.limits.callDepth → host.enter b m = host'.enter b m

namespace Act

/-- An operation that has no use for what a host does where calls are nested deeper than allowed: it
    enters no function there. -/
def Shallow {ε α : Type} (x : Act ε α) : Prop :=
  ∀ host host' : Host, host.AgreeWithin host' → x host = x host'

namespace Shallow

variable {ε ε' α β : Type}

theorem bind {x : Act ε α} {f : α → Act ε β} (hx : x.Shallow) (hf : ∀ a, (f a).Shallow) :
    (x >>= f).Shallow := by
  intro host host' h
  funext m
  rw [run_bind, run_bind, hx _ _ h]
  cases x host' m with
  | ok a m => exact congrFun (hf a _ _ h) m
  | error e m => rfl

theorem attempt {x : Act ε α} (hx : x.Shallow) : (attempt x : Act ε' (Except ε α)).Shallow := by
  intro host host' h
  funext m
  rw [run_attempt, run_attempt, hx _ _ h]

theorem lift (x : Op ε α) : (liftM x : Act ε α).Shallow := fun _ _ _ => rfl

theorem pure (a : α) : (pure a : Act ε α).Shallow := fun _ _ _ => rfl

theorem throw (e : ε) : (throw e : Act ε α).Shallow := fun _ _ _ => rfl

theorem get : (get : Act ε Machine).Shallow := fun _ _ _ => rfl

theorem modify (f : Machine → Machine) : (modify f : Act ε PUnit).Shallow := fun _ _ _ => rfl

theorem modifyGet (f : Machine → α × Machine) : (modifyGet f : Act ε α).Shallow := fun _ _ _ => rfl

theorem ite {c : Prop} [Decidable c] {x y : Act ε α} (hx : x.Shallow) (hy : y.Shallow) :
    (if c then x else y).Shallow := by
  split
  · exact hx
  · exact hy

end Shallow

/-- The frame of a function that is called below the limits is within them. -/
theorem depth_enterFrame {slot : Nat} {called : Machine} {f : Frame} (hlimit : ¬ m.atLimit = true)
    (hc : callee position m = .ok slot called) :
    (called.enterFrame f).depth ≤ (called.enterFrame f).limits.callDepth := by
  have hsame : called.frames = m.frames ∧ called.limits = m.limits := by
    rcases callee_spec hc with ⟨rfl, -⟩ | rfl <;> exact ⟨rfl, rfl⟩
  have hdepth : m.depth < m.limits.callDepth := by
    simp only [atLimit, Bool.or_eq_true, decide_eq_true_eq] at hlimit
    omega
  simpa [Machine.depth, enterFrame, hsame, Nat.succ_le_iff] using hdepth

theorem invoke_shallow (hfailed : ∀ e, (failed e).Shallow) :
    (invoke failed position wanted).Shallow := by
  intro host host' h
  funext m
  rw [invoke_eq, invoke_eq]
  split
  · rfl
  · rename_i hlimit
    cases hc : callee position m with
    | error e called => rfl
    | ok slot called =>
        dsimp only
        cases called.heap.function? slot with
        | none => rfl
        | some f =>
            dsimp only
            rw [h _ _ (depth_enterFrame hlimit hc)]
            cases host'.enter f.body.behaviour (called.enterFrame ⟨position, f.body.origin⟩) with
            | ok count last => rfl
            | error e last => simp only [hfailed e _ _ h]

theorem runHandler_shallow {ε : Type} (handler raised : Value) :
    (runHandler handler raised : Act ε Unit).Shallow := by
  refine .bind .get fun m => .bind (.modify _) fun _ =>
    .bind (.attempt (invoke_shallow fun _ => .modify _)) fun result => ?_
  cases result with
  | ok _ => exact .bind .get fun _ => .bind (.pure _) fun _ => .modify _
  | error _ => exact .bind (.pure _) fun _ => .modify _

theorem showHandler_shallow {ε : Type} (e : ScriptError) : (showHandler e : Act ε Unit).Shallow := by
  refine .bind (.modifyGet _) fun raised => .bind .get fun m => ?_
  cases m.guards with
  | nil => exact .pure _
  | cons g rest =>
      dsimp only
      cases g.handler with
      | none => exact .pure _
      | some handler => exact .ite (.pure _) (runHandler_shallow _ _)

theorem callAt_shallow (position : Nat) (wanted : Int) : (callAt position wanted).Shallow :=
  invoke_shallow showHandler_shallow

theorem call_shallow (count : Nat) (wanted : Int) : (call count wanted).Shallow :=
  .bind (.lift _) fun _ => callAt_shallow _ _

theorem protectedCall_shallow (count : Nat) (wanted : Int) (handler : Option StackIndex) :
    (protectedCall count wanted handler).Shallow := by
  refine .bind (.lift _) fun position => .bind .get fun m => .bind (.modify _) fun _ =>
    .bind (.attempt (callAt_shallow _ _)) fun result => ?_
  cases result with
  | ok _ => exact .modify _
  | error e =>
      exact .bind (showHandler_shallow e) fun _ => .bind (.modifyGet _) fun _ => .throw _

end Act

namespace Machine

open Act

variable {host : Host} {m m' : Machine} {wanted : Int} {count position : Nat} {e : ScriptError}
  {handler : Option StackIndex}

/-! ## Calls that end -/

theorem call_position {count position : Nat} (hp : m.functionBelow? count = some position) :
    call count wanted host m = callAt position wanted host m := by
  rw [call, run_bind, run_lift, functionBelow_eq, hp]

/-- A call that is done had a function to call. -/
theorem call_replaced (hhost : host.Lawful) (hrun : call count wanted host m = .ok () m')
    (hclosed : m'.closed = m.closed) :
    ∃ position, m.functionBelow? count = some position ∧ Replaced host position wanted m m' := by
  cases hp : m.functionBelow? count with
  | none =>
      rw [call, run_bind, run_lift, functionBelow_eq, hp] at hrun
      cases hrun
  | some position =>
      obtain ⟨v, args, hl, -, -, hlength⟩ := laid_of_functionBelow hp
      refine ⟨position, rfl, ?_⟩
      rw [call_position hp, callAt] at hrun
      rw [← hlength] at hrun ⊢
      exact invoke_replaced hhost hl hrun hclosed

theorem call_kept (hhost : host.Lawful) (hm : m.Framed)
    (hp : m.functionBelow? count = some position) (hrun : call count wanted host m = .error e m')
    (hclosed : m'.closed = m.closed) : m.stack.toList.take position <+: m'.stack.toList := by
  obtain ⟨v, args, hl, hargs, hbase, hlength⟩ := laid_of_functionBelow hp
  rw [← hargs] at hrun
  exact ((call_spec (by omega)).error hhost hm hl hrun hclosed).stack

theorem protectedCall_replaced (hhost : host.Lawful)
    (hrun : protectedCall count wanted handler host m = .ok () m') (hclosed : m'.closed = m.closed) :
    ∃ position, m.functionBelow? count = some position ∧
      Replaced host position wanted (m.pushGuard { handler := handler.map m.value }) m' := by
  cases hp : m.functionBelow? count with
  | none =>
      rw [protectedCall, run_bind, run_lift, functionBelow_eq, hp] at hrun
      cases hrun
  | some position =>
      obtain ⟨v, args, hl, -, -, hlength⟩ := laid_of_functionBelow hp
      refine ⟨position, rfl, ?_⟩
      rw [protectedCall_eq hp] at hrun
      cases hcall : callAt position wanted host (m.pushGuard { handler := handler.map m.value }) with
      | ok u m₁ =>
          rw [hcall] at hrun
          cases hrun
          rw [← hlength] at hcall ⊢
          obtain ⟨count, last, hcompleted, hstack⟩ := invoke_replaced hhost
            (m := m.pushGuard { handler := handler.map m.value }) (hl.of_eq rfl rfl) hcall hclosed
          exact ⟨count, last, hcompleted, hstack⟩
      | error e m₁ =>
          rw [hcall] at hrun
          cases hshow : (showHandler e : Act ScriptError Unit) host m₁ <;> simp [hshow] at hrun

/-- The machine in which a protected call runs. -/
theorem Reachable.pushGuard (hm : m.Reachable) (handler : Option Value) :
    (m.pushGuard { handler }).Reachable := hm.moves (.single (.protect handler))

/-- A protected call that failed leaves the value of its error on top. -/
theorem Reachable.protectedCall_back (hm : m.Reachable) (hhost : host.Lawful)
    (hp : m.functionBelow? count = some position)
    (hrun : protectedCall count wanted handler host m = .error e m') :
    m'.stack.back? = some (m'.errorValue e).1 := by
  have hguarded := hm.pushGuard (handler.map m.value)
  have hcalled := callAt_leads (m := m.pushGuard { handler := handler.map m.value }) wanted hhost
    (functionBelow?_bounds hp).1 (functionBelow?_bounds hp).2
  cases hcall : callAt position wanted host (m.pushGuard { handler := handler.map m.value }) with
  | ok u m₁ => simp [protectedCall_eq hp, hcall] at hrun
  | error raised m₁ =>
      obtain ⟨m₂, hshow, hfail⟩ := protectedCall_failed_eq handler hp hcall
      rw [hfail] at hrun
      cases hrun
      rw [Op.after_error hcall] at hcalled
      have hm₁ := hguarded.runs (hcalled hguarded.framed)
      have hm₂ := hm₁.runs ((showHandler_lawful raised).run_ok hhost hm₁.framed hshow)
      exact failProtected_back hm₂.named.sound

/-- A protected call that failed leaves the value of its error in the place of the function. -/
theorem Reachable.protectedCall_failed (hm : m.Reachable) (hhost : host.Lawful)
    (hp : m.functionBelow? count = some position)
    (hrun : protectedCall count wanted handler host m = .error e m') (hclosed : m'.closed = m.closed) :
    m'.stack.toList = m.stack.toList.take position ++ [(m'.errorValue e).1] := by
  obtain ⟨v, args, hl, hargs, hbase, hlength⟩ := laid_of_functionBelow hp
  -- The spec of the call says that one value was put there; which one it is shows on top.
  have hback := hm.protectedCall_back hhost hp hrun
  rw [← hargs] at hrun
  obtain ⟨value, hl'⟩ := (protectedCall_spec (by omega)).error hhost hm.framed hl hrun hclosed
  rw [← Array.getLast?_toList, hl'.stack, List.getLast?_concat] at hback
  rw [hl'.stack, Option.some.inj hback]

/-- A new machine with one function. -/
def withFunction (code : NativeCode) : Machine :=
  let f : Closure Native := { body := { behaviour := .code code, origin := .host }, upvalues := #[] }
  { create {} with heap := ((create {}).heap.newFunction f).2 }

theorem withFunction_reachable (code : NativeCode) : (withFunction code).Reachable :=
  (reachable_create {}).moves (.single (.change (.heap _ (.newFunction _))))

theorem Reachable.push (hm : m.Reachable) (v : Value) : (m.push v).Reachable :=
  hm.runs (leads_push hm.framed)

/-- A function that gives its first argument back, above a number and below an argument. -/
def echoing : Machine :=
  (((withFunction .traceback).push (.int 7)).push (.function 0)).push (.bool true)

theorem echoing_reachable : echoing.Reachable := (((withFunction_reachable _).push _).push _).push _

end Machine

end ScriptHost
