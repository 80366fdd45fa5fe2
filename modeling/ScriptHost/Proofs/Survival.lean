import ScriptHost.Proofs.Persistence
import ScriptHost.Proofs.Propagation

/-! # Raised objects

An object that is raised below a protected call with a message handler stays the same object until
the protected call is done. The stack does not hold it on its way; what does is the record of what the
handler made of it, and that is not there before the handler has run.
-/

namespace ScriptHost

namespace Machine

open Event (Reaching)

variable {m m' : Machine} {v : Value} {new : List Event}

/-- A closed machine runs no cycles. -/
theorem Move.retains_closed (h : Move m m') (hm : m.Framed) (hclosed : m.closed = true) :
    m'.closed = true ∧ Retains v m m' := by
  cases h with
  | change h =>
      obtain ⟨new, hevents, hplain⟩ := h.plain
      exact ⟨(h.isolated hm).closed.trans hclosed, .of_plain hevents hplain⟩
  | service h => exact ⟨(h.isolated hm).closed.trans hclosed, h.retains v⟩
  | enter | leave | protect | unprotect => exact ⟨hclosed, .refl v m⟩
  | cycle hopen | shut hopen => simp [hclosed] at hopen
  | turn slot =>
      obtain ⟨new, hevents, hplain⟩ := turned_plain m slot
      exact ⟨(turned_isolated slot hm).closed.trans hclosed, .of_plain hevents hplain⟩

theorem Moves.retains_closed (h : Moves m m') (hm : m.Reachable) (hclosed : m.closed = true) :
    m'.closed = true ∧ Retains v m m' := by
  induction h with
  | refl => exact ⟨hclosed, .refl v m⟩
  | tail hmoves hmove ih =>
      obtain ⟨hc, hretains⟩ := ih
      obtain ⟨hc', hretains'⟩ := hmove.retains_closed (v := v) (hm.moves hmoves).framed hc
      exact ⟨hc', hretains.trans hretains'⟩

/-- Since an object was raised every cycle reached it, and none will miss it: its handler's record
    holds it, or the machine is closed. -/
structure Sheltered (v : Value) (raise m : Machine) : Prop where
  moves : Moves raise m
  retains : Retains v raise m
  stands : m.closed = true ∨ ∃ d, d.raised = v ∧ m.Decorated (.value v) d

variable {raise : Machine}

theorem Sheltered.leaveFrame (h : Sheltered v raise m) : Sheltered v raise m.leaveFrame :=
  ⟨h.moves.tail .leave, h.retains, h.stands.imp_right fun ⟨d, hd, hdecorated⟩ =>
    ⟨d, hd, hdecorated.guard, hdecorated.raised⟩⟩

theorem Sheltered.extend (h : Sheltered v raise m) (hmoves : Moves m m') (hretains : Retains v m m')
    (hstands : m'.closed = true ∨ ∃ d, d.raised = v ∧ m'.Decorated (.value v) d) :
    Sheltered v raise m' :=
  ⟨h.moves.trans hmoves, h.retains.trans hretains, hstands⟩

theorem Sheltered.of_closed (h : Sheltered v raise m) (hraise : raise.Reachable)
    (hclosed : m.closed = true) (hmoves : Moves m m') : Sheltered v raise m' := by
  obtain ⟨hc, hretains⟩ := hmoves.retains_closed (hraise.moves h.moves) hclosed
  exact h.extend hmoves hretains (.inl hc)

theorem Sheltered.quiet (h : Sheltered v raise m) (hraise : raise.Reachable)
    (hquiet : Quiet [] m m') : Sheltered v raise m' := by
  have hm := hraise.moves h.moves
  rcases h.stands with hclosed | ⟨d, hd, hdecorated⟩
  · exact h.of_closed hraise hclosed hquiet.runs.moves
  · obtain ⟨g, hg, hgd⟩ := hdecorated.guard
    have hretains := (hquiet.untouched hm.framed).retains g (List.mem_of_head? hg) d hgd
    exact h.extend hquiet.runs.moves (hd ▸ hretains) (.inr ⟨d, hd, hdecorated.quiet hm hquiet⟩)

theorem Sheltered.shown {host : Host} (h : Sheltered v raise m) (hraise : raise.Reachable)
    (hhost : host.Lawful) :
    Sheltered v raise (Op.after ((Act.showHandler (.value v) : Act ScriptError Unit) host) m) := by
  rcases h.stands with hclosed | ⟨d, -, hdecorated⟩
  · have hruns := Act.showHandler_lawful (ε := ScriptError) (.value v) host hhost m
      (hraise.moves h.moves).framed
    exact h.of_closed hraise hclosed hruns.moves
  · rw [Op.after_ok (hdecorated.shown host)]
    exact h

end Machine

namespace Machine

open Event (Reaching)
open Act

variable {host : Host} {m raise : Machine} {v : Value} {r : Ref} {object : Heap.Identity Native}
  {i : StackIndex} {n position count : Nat}

/-- Where an object is raised below a protected call, the handler of that call is due or has seen
    it, unless the machine is closed. -/
theorem sheltered_raised (hhost : host.Lawful) (hm : m.Reachable)
    (hdescent : Descent n (m.pushGuard { handler := some (m.value i) }) raise)
    (hhandler : Retains v raise
      (Op.after ((showHandler (.value v) : Act ScriptError Unit) host) raise)) :
    Sheltered v raise (Op.after ((showHandler (.value v) : Act ScriptError Unit) host) raise) := by
  have hguarded := hm.pushGuard (some (m.value i))
  have hraise := hguarded.moves hdescent.moves
  obtain ⟨u, shown, hshow⟩ := showHandler_total (ε := ScriptError) (.value v) host raise
  have hruns := (showHandler_lawful (.value v)).run_ok hhost hraise.framed hshow
  rw [Op.after_ok hshow] at hhandler ⊢
  refine ⟨hruns.moves, hhandler, ?_⟩
  cases hclosed : shown.closed with
  | true => exact .inl rfl
  | false =>
      -- A machine that is open in the end was so all the time.
      have hle : m.closed = true → raise.closed = true := hdescent.closed_le hguarded.framed
      have hc : raise.closed = false := by
        simpa [hclosed] using mt (hruns.preserved hraise.framed).closed_le
      have hc' : m.closed = false := by simpa [hc] using mt hle
      have hheeds := hdescent.heeds hguarded.framed (hc.trans hc'.symm)
      obtain ⟨d, hd, hraised, -⟩ :=
        decorated_showHandler hhost hraise hheeds hshow (hclosed.trans hc.symm)
      exact .inr ⟨d, hraised, hd⟩

/-- An object that a function raises below a protected call with a message handler, and that the
    functions on the way pass on, is the same object until the protected call is done, if it was
    reached by the cycles that ran while the handler did. -/
theorem Reachable.raised_object (hm : m.Reachable) (hhost : host.Lawful) (wanted : Int)
    (hp : m.functionBelow? count = some position)
    (hchain : Chain host (.value v) raise (Quiet []) n position
      (m.pushGuard { handler := some (m.value i) }))
    (hv : v.ref? = some r) (hr : raise.heap.identity? r = some object)
    (hhandler : Retains v raise
      (Op.after ((showHandler (.value v) : Act ScriptError Unit) host) raise)) :
    ∃ final m', protectedCall count wanted (some i) host m = .error final m' ∧ Moves raise m' ∧
      Retains v raise m' ∧ ∀ last, Moves raise last → Moves last m' → last.heap.identity? r = some object := by
  have hguarded := hm.pushGuard (some (m.value i))
  obtain ⟨hbase, hlt⟩ := functionBelow?_bounds hp
  have hdescent := hchain.descent hhost hguarded.framed hbase hlt
  have hraise := hguarded.moves hdescent.moves
  obtain ⟨shown, -, hshown, hfail, hend⟩ := hchain.fails_protected (P := Sheltered v raise)
    (some i) hm hhost hp wanted (sheltered_raised hhost hm hdescent hhandler)
    (fun _ => Sheltered.leaveFrame) (fun _ _ hquiet h => h.quiet hraise hquiet)
    fun _ h => h.shown hraise hhost
  have hretains : Retains v raise (shown.failProtected m.depth position (.value v)).2 := hshown.retains
  refine ⟨_, _, hfail, hshown.moves.trans hend, hretains, fun last hbefore hafter => ?_⟩
  obtain ⟨hretains, -⟩ := hretains.split (Moves.log hbefore) (Moves.log hafter)
  exact Moves.identity hbefore hraise hretains hv hr

/-- A function that raises a new table, above a function that serves as a message handler. -/
def raising : Machine :=
  let m := withFunction (.program "f")
  let f : Closure Native := { body := { behaviour := .code .traceback, origin := .host }, upvalues := #[] }
  ({ m with heap := (m.heap.newFunction f).2 }.push (.function 1)).push (.function 0)

theorem raising_reachable : raising.Reachable := by
  have hfunctions : Reachable { withFunction (.program "f") with
      heap := ((withFunction (.program "f")).heap.newFunction
        { body := { behaviour := .code .traceback, origin := .host }, upvalues := #[] }).2 } :=
    (withFunction_reachable _).moves (.single (.change (.heap _ (.newFunction _))))
  exact (hfunctions.push _).push _

def raisingHost : Host :=
  Programs.host [("f", [.basic (.stack .table), .basic (.raise .top)])] 1

/-- The handler leaves the table alone, and it is there until the protected call is done. -/
theorem raising_raised_object : ∃ raise final m',
    Chain raisingHost (.value (.table 2)) raise (Quiet []) 1 1
      (raising.pushGuard { handler := some (raising.value (.fromBottom 1)) }) ∧
    protectedCall 0 0 (some (.fromBottom 1)) raisingHost raising = .error final m' ∧
    m'.heap.identity? ⟨.table, 2⟩ = some .table := by
  have hchain : ∃ raise, Chain raisingHost (.value (.table 2)) raise (Quiet []) 1 1
      (raising.pushGuard { handler := some (raising.value (.fromBottom 1)) }) ∧
      raise.heap.identity? ⟨.table, 2⟩ = some .table ∧ ∃ handler answer,
      (Op.after ((showHandler (.value (.table 2)) : Act ScriptError Unit) raisingHost) raise).events =
        [.handled 1 (.table 2) answer, .handling 1 handler (.table 2)] ++ raise.events :=
    ⟨_, .raise (.intro rfl rfl rfl) rfl, rfl, _, _, rfl⟩
  obtain ⟨raise, hchain, hthere, handler, answer, hevents⟩ := hchain
  have hhandler : Retains (.table 2) raise
      (Op.after ((showHandler (.value (.table 2)) : Act ScriptError Unit) raisingHost) raise) :=
    ⟨_, hevents, by simp [Reaching]⟩
  obtain ⟨final, m', hrun, hmoves, -, hsame⟩ := raising_reachable.raised_object
    (Programs.host_lawful 1) 0 (show raising.functionBelow? 0 = some 1 from rfl) hchain rfl hthere hhandler
  exact ⟨raise, final, m', hchain, hrun, hsame m' hmoves .refl⟩

end Machine

end ScriptHost
