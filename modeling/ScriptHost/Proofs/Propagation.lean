import ScriptHost.Proofs.Handling

/-! # Errors on their way

An error that a function raises fails the calls that are active there, one after the other, as long
as the functions that made them pass it on. What a message handler made of it where it was raised
stands all the way, unless a function on the way calls others outside protected calls.
-/

namespace ScriptHost

namespace Machine

/-- Code of a frame has got to another machine inside of so many calls that it made. -/
inductive Descent : Nat → Machine → Machine → Prop where
  | refl (m) : Descent 0 m m
  | run {n m m' m''} : Runs [] m m' → Descent n m' m'' → Descent n m m''
  | enter {n m m'} (f : Frame) : m.base ≤ f.function → f.function < m.stack.size →
      Descent n (m.enterFrame f) m' → Descent (n + 1) m m'

/-- A run that makes no calls but inside protected calls of its own: what a function may still do
    that passes an error on. -/
inductive Quiet : List Nat → Machine → Machine → Prop where
  | refl (m) : Quiet [] m m
  | trans {p q m m' m''} : Quiet p m m' → Quiet q m' m'' → Quiet (p ++ q) m m''
  | change {m m'} : Change m m' → Quiet [] m m'
  | protect {m m'} (handler) : Runs [] (m.pushGuard { handler }) m' → m'.closed = m.closed →
      Quiet [] m m'.popGuard
  | collect {m m'} : m.closed = false → Quiet m.cycle.1.reverse m.cycle.2.2 m' → Quiet [] m m'
  | turn {m m' slot} : Runs [] ((m.turned slot).pushGuard {}) m' → m'.closed = m.closed →
      Quiet [slot] m m'.popGuard

variable {m m' m'' : Machine} {p q : List Nat} {n k : Nat} {e : ScriptError} {d : Decoration}
  {host : Host} {slot : Nat}

open Event (Reaching)

/-! ## The way down -/

theorem Descent.moves (h : Descent n m m') : Moves m m' := by
  induction h with
  | refl => exact .refl
  | run hrun _ ih => exact hrun.moves.trans ih
  | enter f hbase hlt _ ih => exact .head (.enter f hbase hlt) ih

theorem Descent.closed_le (h : Descent n m m') (hm : m.Framed) (hclosed : m.closed = true) :
    m'.closed = true := by
  induction h with
  | refl => exact hclosed
  | run hrun _ ih =>
      have hkept := hrun.preserved hm
      exact ih hkept.framed (hkept.closed_le hclosed)
  | enter f hbase hlt _ ih => exact ih hlt hclosed

/-- What runs keep and calls add to, on a way down that does not close the machine. -/
theorem Descent.follows {P : Nat → Machine → Prop} (h : Descent n m m') (hm : m.Framed)
    (hclosed : m'.closed = m.closed)
    (hrun : ∀ {k m m'}, m.Framed → Runs [] m m' → m'.closed = m.closed → P k m → P k m')
    (henter : ∀ {k m} (f : Frame), P k m → P (k + 1) (m.enterFrame f)) (hp : P k m) :
    P (k + n) m' := by
  induction h generalizing k with
  | refl => exact hp
  | @run n m m' m'' hfirst hrest ih =>
      have hkept := hfirst.preserved hm
      have hc : m'.closed = m.closed := by
        cases hm' : m'.closed with
        | true => rw [← hclosed, hrest.closed_le hkept.framed hm']
        | false =>
            cases hm'' : m.closed with
            | true => rw [hkept.closed_le hm''] at hm'; cases hm'
            | false => rfl
      exact ih hkept.framed (hclosed.trans hc.symm) (hrun hm hfirst hc hp)
  | @enter n m m' f hbase hlt _ ih =>
      rw [Nat.add_comm n 1, ← Nat.add_assoc]
      exact ih hlt hclosed (henter f hp)

/-- Below the frames of the calls lie those that were active before. -/
theorem Descent.frames (h : Descent n m m') (hm : m.Framed) (hclosed : m'.closed = m.closed) :
    ∃ frames, frames.length = n ∧ m'.frames = frames ++ m.frames := by
  have hall := h.follows (k := 0)
    (P := fun k m' => ∃ frames : List Frame, frames.length = k ∧ m'.frames = frames ++ m.frames)
    hm hclosed ?run ?enter ⟨[], rfl, rfl⟩
  · rwa [Nat.zero_add] at hall
  case run =>
    rintro k m m' hm hrun hc ⟨frames, hlength, hframes⟩
    exact ⟨frames, hlength, (hrun.isolated hm hc).frames.trans hframes⟩
  case enter =>
    rintro k m f ⟨frames, hlength, hframes⟩
    exact ⟨f :: frames, congrArg (· + 1) hlength, congrArg (f :: ·) hframes⟩

theorem Descent.service (h : Descent n m m') (hm : m.Framed) (hclosed : m'.closed = m.closed) :
    m'.service = m.service :=
  h.follows (k := 0) (P := fun _ m' => m'.service = m.service) hm hclosed
    (fun hm hrun hc hsame => (hrun.service hm hc).trans hsame) (fun _ hsame => hsame) rfl

theorem retains_endHandling {position : Nat} {raised : Value} {answer : Option Value} (v : Value) :
    Retains v m (m.endHandling position raised answer) :=
  ⟨[_], endHandling_events, by simp [Reaching]⟩

theorem Service.retains (h : Service m m') (v : Value) : Retains v m m' := by
  cases h with
  | forgotten =>
      rw [forgetDecoration_eq]
      exact .refl v m
  | begun => exact ⟨[_], by rw [beginHandling_eq]; rfl, by simp [Reaching]⟩
  | ended => exact retains_endHandling v

theorem Descent.heeds {handler : Value} (h : Descent n (m.pushGuard { handler := some handler }) m')
    (hm : (m.pushGuard { handler := some handler }).Framed) (hclosed : m'.closed = m.closed) :
    m'.Heeds handler := by
  rw [heeds_iff, h.service hm hclosed]
  rfl

/-- Cycles reach the handlers of the active protected calls. -/
theorem Runs.retains_handlers (h : Runs q m m') (hm : m.Framed) (hclosed : m'.closed = m.closed) :
    ∀ v, some v ∈ m.guards.map (·.handler) → Retains v m m' := by
  refine h.induction (P := fun m m' => ∀ v, some v ∈ m.guards.map Guard.handler → Retains v m m')
    hm hclosed (fun _ _ _ => .refl _ _) ?trans ?change ?forget (fun _ h => h) ?protect ?handle ?cycle
    ?turned
  case trans =>
    intro q m m' m'' hisolated _ _ h h' v hv
    exact (h v hv).trans (h' v (hisolated.handlers.symm ▸ hv))
  case change =>
    intro m m' _ h v _
    obtain ⟨new, hevents, hplain⟩ := h.plain
    exact .of_plain hevents hplain
  case forget =>
    intro m v _
    rw [forgetDecoration_eq]
    exact .refl v m
  case protect => exact fun _ h v hv => h v (List.mem_cons_of_mem _ hv)
  case handle =>
    intro m m' handler raised answer hheeds _ _ _ h v hv
    have hbegun : some v ∈ (m.beginHandling handler raised).guards.map (·.handler) := by
      rw [beginHandling_eq]
      cases hguards : m.guards with
      | nil => simp [hguards] at hv
      | cons g rest => simpa [hguards] using hv
    exact ((Service.begun handler raised hheeds).retains v).trans
      ((h v hbegun).trans (retains_endHandling v))
  case cycle =>
    intro m _ v hv
    obtain ⟨g, hg, hhandler⟩ := List.mem_map.mp hv
    exact Retains.cycle_iff.mpr fun r hr => .start (.handler hg hhandler) hr
  case turned =>
    intro m slot v _
    obtain ⟨new, hevents, hplain⟩ := turned_plain m slot
    exact .of_plain hevents hplain

theorem Descent.retains_handlers {v : Value} (h : Descent n m m') (hm : m.Framed)
    (hclosed : m'.closed = m.closed) (hv : some v ∈ m.guards.map (·.handler)) : Retains v m m' := by
  have hall := h.follows (k := 0)
    (P := fun _ m' => some v ∈ m'.guards.map Guard.handler ∧ Retains v m m') hm hclosed ?run
    (fun _ h => h) ⟨hv, .refl v m⟩
  · exact hall.2
  case run =>
    rintro k m m' hm hrun hc ⟨hv, hretains⟩
    exact ⟨(hrun.isolated hm hc).handlers.symm ▸ hv, hretains.trans (hrun.retains_handlers hm hc v hv)⟩

/-! ## The way up -/

theorem Quiet.runs (h : Quiet q m m') : Runs q m m' := by
  induction h with
  | refl m => exact .refl m
  | trans _ _ ih ih' => exact ih.trans ih'
  | change h => exact .change h
  | protect handler h => exact .protect handler h
  | collect hopen _ ih => exact .collect hopen ih
  | turn h => exact .turn h

/-- All protected calls stay as they are, and cycles reach the errors that handlers saw. -/
structure Untouched (m m' : Machine) : Prop where
  closed : m'.closed = m.closed
  guards : m'.guards = m.guards
  retains : ∀ g ∈ m.guards, ∀ d, g.decoration = some d → Retains d.raised m m'

theorem Untouched.trans (h : Untouched m m') (h' : Untouched m' m'') : Untouched m m'' :=
  ⟨h'.closed.trans h.closed, h'.guards.trans h.guards, fun g hg d hd =>
    (h.retains g hg d hd).trans (h'.retains g (h.guards.symm ▸ hg) d hd)⟩

theorem untouched_plain {new : List Event} (hevents : m'.events = new ++ m.events)
    (hclosed : m'.closed = m.closed) (hguards : m'.guards = m.guards) (hplain : ∀ e ∈ new, e.IsPlain) :
    Untouched m m' :=
  ⟨hclosed, hguards, fun _ _ _ _ => .of_plain hevents hplain⟩

theorem untouched_cycle (hm : m.Framed) : Untouched m m.cycle.2.2 := by
  obtain ⟨heap, events, heq⟩ := m.cycle_eq
  exact ⟨(cycle_isolated hm).closed, by rw [heq], fun g hg d hd =>
    Retains.cycle_iff.mpr fun r hr => .start (.raised hg hd) hr⟩

theorem untouched_protect {handler : Option Value} (h : Runs [] (m.pushGuard { handler }) m')
    (hm : m.Framed) (hclosed : m'.closed = m.closed) : Untouched m m'.popGuard := by
  obtain ⟨new, htends⟩ := h.tends hm hclosed
  exact ⟨hclosed, (h.isolated hm hclosed).guards, fun g hg d hd =>
    ⟨new, htends.log, htends.outer g hg d hd⟩⟩

theorem Quiet.untouched (h : Quiet q m m') (hm : m.Framed) : Untouched m m' := by
  induction h with
  | refl m => exact ⟨rfl, rfl, fun _ _ _ _ => .refl _ m⟩
  | trans h h' ih ih' => exact (ih hm).trans (ih' (h.runs.framed hm))
  | change h =>
      obtain ⟨new, hevents, hplain⟩ := h.plain
      exact untouched_plain hevents (h.isolated hm).closed h.guards hplain
  | protect handler h hclosed => exact untouched_protect h hm hclosed
  | collect hopen h ih => exact (untouched_cycle hm).trans (ih (cycle_isolated hm).framed)
  | @turn m m' slot h hclosed =>
      have hturned := turned_isolated slot hm
      obtain ⟨new, hevents, hplain⟩ := turned_plain m slot
      obtain ⟨events, heq⟩ := turned_eq m slot
      exact (untouched_plain hevents hturned.closed (by rw [heq]) hplain).trans
        (untouched_protect h hturned.framed (hclosed.trans hturned.closed.symm))

/-- An error that a handler saw is not shown to it again. -/
theorem Decorated.shown {ε : Type} (h : m.Decorated e d) (host : Host) :
    (Act.showHandler e : Act ε Unit) host m = .ok () m := by
  obtain ⟨g, hg, hd⟩ := h.guard
  have hvalue : m.errorValue e = (d.raised, m) := by rw [errorValue, h.raised]
  rw [Act.showHandler, Act.run_bind, Act.run_modifyGet]
  dsimp only
  rw [hvalue, Act.run_bind, Act.run_get]
  dsimp only
  cases hguards : m.guards with
  | nil => rfl
  | cons g' rest =>
      obtain rfl : g' = g := by simpa [hguards] using hg
      dsimp only
      rw [hd]
      cases g'.handler with
      | none => rfl
      | some handler => simp

theorem Decorated.quiet (h : m.Decorated e d) (hm : m.Reachable) (hquiet : Quiet [] m m') :
    m'.Decorated e d := by
  obtain ⟨g, hg, hd⟩ := h.guard
  refine ⟨⟨g, ?_, hd⟩, ?_⟩
  · rw [(hquiet.untouched hm.framed).guards, hg]
  · have hsound := (hm.runs hquiet.runs).named.sound
    have hextends := hquiet.runs.strings
    rw [toValue_extends hsound (by rw [h.raised]; exact hextends), h.raised]

end Machine

namespace Act

open Machine

/-- Below the limits a call of the value at a stack position enters a function. -/
inductive Enters (position : Nat) (m : Machine) : Behaviour → Machine → Prop where
  | intro {slot called f} : m.atLimit = false → callee position m = .ok slot called →
      called.heap.function? slot = some f →
      Enters position m f.body.behaviour (called.enterFrame ⟨position, f.body.origin⟩)

/-- A call of the value at a stack position leads through so many functions to one that raises an
    error, and every function on the way passes the error on. What these do after it is restricted. -/
inductive Chain (host : Host) (e : ScriptError) (raise : Machine) (After : Machine → Machine → Prop) :
    Nat → Nat → Machine → Prop where
  | raise {position m b entered} : Enters position m b entered →
      host.enter b entered = .error e raise → Chain host e raise After 1 position m
  | pass {n position inner count wanted m b entered start last} : Enters position m b entered →
      Runs [] entered start → start.functionBelow? count = some inner →
      Chain host e raise After n inner start →
      After (Op.after (callAt inner wanted host) start) last →
      host.enter b entered = .error e last → Chain host e raise After (n + 1) position m

variable {host : Host} {e : ScriptError} {raise m entered last : Machine} {n position : Nat}
  {b : Behaviour} {After : Machine → Machine → Prop}

/-- A function that fails fails its call, and its error is shown before its frame is left. -/
theorem Enters.fails (h : Enters position m b entered) (hrun : host.enter b entered = .error e last)
    (wanted : Int) : callAt position wanted host m =
      .error e (Op.after ((showHandler e : Act ScriptError Unit) host) last).leaveFrame := by
  obtain ⟨hlimit, hc, hf⟩ := h
  rw [callAt, invoke_eq, if_neg (by simp [hlimit]), hc]
  obtain ⟨u, shown, hshow⟩ := showHandler_total (ε := ScriptError) e host last
  simp only [hf, hrun, hshow, Op.after_ok hshow]

theorem Enters.descent (h : Enters position m b entered) (hm : m.Framed) (hbase : m.base ≤ position)
    (hlt : position < m.stack.size) (hrest : Descent n entered raise) : Descent (n + 1) m raise := by
  obtain ⟨hlimit, hc, hf⟩ := h
  obtain ⟨hleads, hbase', hsize⟩ := callee_leads hbase hc
  exact .run (hleads hm) (.enter _ hbase' (Nat.lt_of_lt_of_le hlt hsize) hrest)

theorem Enters.framed (h : Enters position m b entered) (hbase : m.base ≤ position)
    (hlt : position < m.stack.size) : entered.Framed := by
  obtain ⟨hlimit, hc, hf⟩ := h
  exact Nat.lt_of_lt_of_le hlt (callee_leads hbase hc).2.2

theorem Chain.fails (h : Chain host e raise After n position m) (wanted : Int) :
    ∃ last, callAt position wanted host m = .error e last := by
  cases h with
  | raise henter hrun => exact ⟨_, henter.fails hrun wanted⟩
  | pass henter _ _ _ _ hrun => exact ⟨_, henter.fails hrun wanted⟩

theorem Chain.descent (h : Chain host e raise After n position m) (hhost : host.Lawful)
    (hm : m.Framed) (hbase : m.base ≤ position) (hlt : position < m.stack.size) :
    Descent n m raise := by
  induction h with
  | @raise position m b entered henter hrun =>
      have hbody := Op.after_error hrun ▸ hhost b entered (henter.framed hbase hlt)
      exact henter.descent hm hbase hlt (.run hbody (.refl raise))
  | @pass n position inner count wanted m b entered start last henter hrun hinner _ _ _ ih =>
      obtain ⟨hbase', hlt'⟩ := functionBelow?_bounds hinner
      have hstart := hrun.framed (henter.framed hbase hlt)
      exact henter.descent hm hbase hlt (.run hrun (ih hstart hbase' hlt'))

/-- What holds after the error was shown where it was raised, and is kept on the way up. -/
theorem Chain.carries {P : Machine → Prop} (h : Chain host e raise After n position m) (wanted : Int)
    (hraise : P (Op.after ((showHandler e : Act ScriptError Unit) host) raise))
    (hleave : ∀ m, P m → P m.leaveFrame) (hafter : ∀ m m', After m m' → P m → P m')
    (hshow : ∀ m, P m → P (Op.after ((showHandler e : Act ScriptError Unit) host) m)) :
    P (Op.after (callAt position wanted host) m) := by
  induction h generalizing wanted with
  | raise henter hrun =>
      rw [Op.after_error (henter.fails hrun wanted)]
      exact hleave _ hraise
  | pass henter _ _ _ hpass hrun ih =>
      rw [Op.after_error (henter.fails hrun wanted)]
      exact hleave _ (hshow _ (hafter _ _ hpass (ih _)))

/-- A protected call around a chain fails, and ends without running more code. -/
theorem Chain.fails_protected {P : Machine → Prop} {count : Nat} (handler : Option StackIndex)
    (hm : m.Reachable) (hhost : host.Lawful) (hp : m.functionBelow? count = some position)
    (h : Chain host e raise After n position (m.pushGuard { handler := handler.map m.value }))
    (wanted : Int) (hraise : P (Op.after ((showHandler e : Act ScriptError Unit) host) raise))
    (hleave : ∀ m, P m → P m.leaveFrame) (hafter : ∀ m m', After m m' → P m → P m')
    (hshow : ∀ m, P m → P (Op.after ((showHandler e : Act ScriptError Unit) host) m)) :
    ∃ shown, Runs [] (m.pushGuard { handler := handler.map m.value }) shown ∧ P shown ∧
      protectedCall count wanted handler host m = .error
        (shown.failProtected m.depth position e).1 (shown.failProtected m.depth position e).2 ∧
      Moves shown (shown.failProtected m.depth position e).2 := by
  have hguarded := hm.pushGuard (handler.map m.value)
  obtain ⟨hbase, hlt⟩ := functionBelow?_bounds hp
  obtain ⟨failed, hcall⟩ := h.fails wanted
  have hfailed := h.carries wanted hraise hleave hafter hshow
  have hcalled := callAt_leads (m := m.pushGuard { handler := handler.map m.value }) wanted hhost
    hbase hlt hguarded.framed
  rw [Op.after_error hcall] at hfailed hcalled
  obtain ⟨shown, hrun, hfail⟩ := protectedCall_failed_eq handler hp hcall
  have hshown := (showHandler_lawful _).run_ok hhost (hguarded.runs hcalled).framed hrun
  have hruns := hcalled.trans_nil hshown
  refine ⟨shown, hruns, Op.after_ok hrun ▸ hshow _ hfailed, hfail, ?_⟩
  exact .head .unprotect (runs_failProtected hm.framed hruns hbase).moves

/-- What a message handler made of the error where it was raised stands until the protected call
    around a chain fails. -/
theorem Chain.decorated_protected {count : Nat} {told : Machine} {d : Decoration}
    (handler : Option StackIndex) (hm : m.Reachable) (hhost : host.Lawful)
    (hp : m.functionBelow? count = some position)
    (h : Chain host e raise (Quiet []) n position (m.pushGuard { handler := handler.map m.value }))
    (wanted : Int) (hshow : (showHandler e : Act ScriptError Unit) host raise = .ok () told)
    (htold : told.Reachable) (hd : told.Decorated e d) :
    ∃ shown, Moves told shown ∧ shown.Decorated e d ∧ shown.closed = told.closed ∧
      protectedCall count wanted handler host m = .error
        (shown.failProtected m.depth position e).1 (shown.failProtected m.depth position e).2 := by
  have hup := h.fails_protected
    (P := fun m => Moves told m ∧ m.Decorated e d ∧ m.closed = told.closed) handler hm hhost hp wanted
    ?raised ?leave ?quiet ?again
  case raised =>
    rw [Op.after_ok hshow]
    exact ⟨.refl, hd, rfl⟩
  case leave =>
    exact fun m ⟨hmoves, hstands, hopen⟩ =>
      ⟨hmoves.tail .leave, ⟨hstands.guard, hstands.raised⟩, hopen⟩
  case quiet =>
    rintro m m' hquiet ⟨hmoves, hstands, hopen⟩
    have hm := htold.moves hmoves
    exact ⟨hmoves.trans hquiet.runs.moves, hstands.quiet hm hquiet,
      (hquiet.untouched hm.framed).closed.trans hopen⟩
  case again =>
    rintro m ⟨hmoves, hstands, hopen⟩
    rw [Op.after_ok (hstands.shown host)]
    exact ⟨hmoves, hstands, hopen⟩
  obtain ⟨shown, -, ⟨hmoves, hstands, hopen⟩, hfail, -⟩ := hup
  exact ⟨shown, hmoves, hstands, hopen, hfail⟩

end Act

namespace Machine

/-- A function of the host on the stack of a machine. -/
def calling : Machine := (withFunction (.program "f")).push (.function 0)

theorem calling_reachable : calling.Reachable := (withFunction_reachable _).push _

end Machine

end ScriptHost
