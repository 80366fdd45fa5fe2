import ScriptHost.Proofs.MarshaledCall
import ScriptHost.Proofs.Marshaling

/-! # Marshaling is all or nothing

A format is read to its end exactly if it is grammatical and suits the arguments, and then it has pushed
one value for every element that is not suppressed; else the stack is as it was. The tables that were
there are left alone. All this holds unless a finalizer closes the machine, which takes the stack away
from under the reader.
-/

namespace ScriptHost

open Machine

namespace Machine

open Act

variable {host : Host} {m : Machine} {r : Ref}

/-- Tables that no cycle missed are as they were. -/
theorem Beside.tables {start : Machine} {own : List Nat} (h : Beside start own m) :
    (∀ r, start.Reached r → Retains (.object r) start m) ∧
      ∀ slot t, start.heap.tables.get? slot = some t → Retains (.table slot) start m →
        m.heap.tables.get? slot = some t := by
  refine ⟨fun r => h.retains, fun slot t ht hretains => ?_⟩
  have hthere := Heap.contents?_table.mpr ht
  exact Heap.contents?_table.mp ((h.kept (by rw [hthere]; simp) hretains).trans hthere)

/-- A format whose directives are self-contained is read to its end only if it is grammatical and suits
    the arguments; and then it is, unless the machine is closed meanwhile. -/
theorem Reachable.format_accepts (hm : m.Reachable) (hhost : host.Lawful) (n : Nat)
    {ds : List Directive} (hds : SelfContained ds) (args : List Argument) :
    ∃ problem m', Reading.format n ds args host m = .ok problem m' ∧
      (problem = none → Format.Accepts ds args) ∧
      (Format.Accepts ds args → m'.closed = m.closed → problem = none) := by
  obtain ⟨problem, m', hrun, hdone, hstopped⟩ := Reading.format_meets hhost hm n ds args
  refine ⟨problem, m', hrun, fun h => Format.accepts_iff.mpr (hdone h).1, fun haccepts hc => ?_⟩
  by_contra hproblem
  exact ((hstopped hproblem).shape hc).2 hds (Format.accepts_iff.mp haccepts)

theorem elements_integer : Format.elements [.integer] = [.scalar .integer] := by
  simp [Format.elements, Format.element]

/-- A format with a number. -/
theorem format_integer (n : Nat) :
    Reading.format n [.integer] [.int 7] host m = .ok none (m.pushInt 7) := by
  rw [Reading.format, elements_integer, Reading.all, Reading.element]
  rfl

theorem create_format_accepts :
    (∃ m', Reading.format 1 [.integer] [.int 7] (Programs.host [] 1) (create {}) = .ok none m') ∧
      Format.Accepts [.integer] [.int 7] := by
  have hds : SelfContained [.integer] := by simp [SelfContained, Directive.isSelfContained]
  have hhost : (Programs.host [] 1).Lawful := Programs.host_lawful 1
  obtain ⟨problem, m', hrun, hsound, -⟩ := (reachable_create {}).format_accepts hhost 1 hds [.int 7]
  rw [format_integer] at hrun
  cases hrun
  exact ⟨⟨_, format_integer 1⟩, hsound rfl⟩

/-! ## A finalizer that closes the machine -/

/-- A machine that was closed and has not been used since. -/
structure Emptied (m : Machine) : Prop where
  closed : m.closed = true
  stack : m.stack = #[]
  frames : m.frames = []
  guards : m.guards = []

theorem Emptied.endTurn (h : m.Emptied) (depth position : Nat) :
    (m.leaveFrame.endTurn depth position).Emptied := by
  refine ⟨h.closed, ?_, ?_, ?_⟩
  · change m.stack.shrink position = #[]
    rw [h.stack]
    simp
  · change m.frames.tail.drop _ = []
    rw [h.frames, List.tail_nil, List.drop_nil]
  · change m.guards.tail = []
    rw [h.guards, List.tail_nil]

/-- Closing when no finalizer is due. -/
theorem close_idle {ε : Type} (host : Host) (hopen : m.closed = false) (hqueue : m.shut.1 = []) :
    ∃ m', (close : Act ε Unit) host m = .ok () m' ∧ m'.Emptied := by
  refine ⟨{ m.shut.2 with cache := m.shut.2.cache.clear }, ?_, ?_⟩
  · rw [close, run_bind, run_get]
    simp only [hopen, Bool.not_false, if_true]
    rw [run_bind, run_modifyGet]
    dsimp only
    rw [hqueue]
    rfl
  · simp only [shut, enqueue_eq]
    exact ⟨rfl, rfl, rfl, rfl⟩

theorem closingHost_enter (hopen : m.closed = false) (hqueue : m.shut.1 = []) :
    ∃ m', closingHost.enter (.code (.program "f")) m = .error (.runtime "no") m' ∧ m'.Emptied := by
  obtain ⟨m', hclose, hempty⟩ := close_idle (ε := ScriptError) (Programs.host
    [("f", [.basic (.machine .close), .basic (.raise (.error (.runtime "no")))])] 0) hopen hqueue
  refine ⟨m', ?_, hempty⟩
  change Programs.enter _ (.code (.program "f")) _ m = _
  simp only [Programs.enter, run_bind, run_mapError, List.lookup_cons_self, Option.getD_some,
    Step.runAll, Step.run, BasicStep.run, script, MachineStep.run, silently, hclose]
  rfl

/-- The turn of a userdata whose finalizer closes the machine and fails. -/
theorem finalize_closing {ε : Type} {slot f : Nat} {origin : Origin} {upvalues : Array Value}
    (hopen : m.closed = false)
    (hf : (m.beginTurn slot).metafield (.userdata slot) .finalizer = .function f)
    (hfunction : m.heap.function? f = some ⟨⟨.code (.program "f"), origin⟩, upvalues⟩)
    (hlimit : (m.prepared slot f).atLimit = false) (hqueue : (m.turned slot).shut.1 = []) :
    ∃ m', (finalize slot : Act ε Unit) closingHost m = .ok () m' ∧ m'.Emptied := by
  refine ⟨_, finalize_function hf, ?_⟩
  obtain ⟨events, heq⟩ := turned_eq m slot
  have hcallee : callee m.stack.size (m.prepared slot f) = .ok f (m.prepared slot f) := by
    refine callee_function ?_
    rw [prepared, heq]
    change ((m.stack.push (.function f)).push (.userdata slot))[m.stack.size]? = _
    rw [Array.getElem?_push, if_neg (by rw [Array.size_push]; omega), Array.getElem?_push_size]
  have hthere : (m.prepared slot f).heap.function? f = some ⟨⟨.code (.program "f"), origin⟩, upvalues⟩ := by
    rw [prepared, heq]
    exact hfunction
  obtain ⟨m', henter, hempty⟩ := closingHost_enter
    (m := (m.prepared slot f).enterFrame { function := m.stack.size, origin := origin })
    (by rw [prepared, heq]; exact hopen) hqueue
  have hidle : ∀ handler, ¬ m'.Heeds handler := by
    rintro handler ⟨g, rest, hguards, -⟩
    rw [hempty.guards] at hguards
    cases hguards
  have hcall : callAt m.stack.size 0 closingHost (m.prepared slot f) =
      .error (.runtime "no") (m'.errorValue (.runtime "no")).2.leaveFrame := by
    rw [callAt, invoke_eq, if_neg (by simp [hlimit]), hcallee]
    dsimp only
    rw [hthere]
    dsimp only
    rw [henter]
    dsimp only
    rw [showHandler_idle hidle]
  have hshown : (m'.errorValue (.runtime "no")).2.Emptied :=
    ⟨hempty.closed, hempty.stack, hempty.frames, hempty.guards⟩
  rw [Op.after_error hcall]
  exact hshown.endTurn _ _

/-- What closing queues has had no turn. -/
theorem mem_shut_queue_inv {slot : Nat} (h : slot ∈ m.shut.1) :
    ∃ u, m.heap.userdata? slot = some u ∧ m.heap.isFinalized slot = false := by
  obtain ⟨u, hu, -, hflag, -⟩ := Heap.mem_finalizable.mp h
  exact ⟨u, hu, hflag⟩

/-- A machine with a number on its stack. The next allocation but one starts a cycle, and that finds a
    userdata that was dropped. Its finalizer is the function of the host. -/
def interrupted : Machine :=
  let m := create { collectInterval := some 6 }
  let h := m.heap.newTable.2
  let h := (h.newFunction { body := { behaviour := .code (.program "f"), origin := .host }, upvalues := #[] }).2
  let h := h.modifyTable 2 fun t => t.set (.string Metafield.finalizer.id) (.function 0)
  let h := (h.newUserdata 0).2.modifyUserdata 0 fun u => { u with metatable := some 2 }
  { m with stack := #[.int 1], heap := h }

theorem interrupted_reachable : interrupted.Reachable := by
  have hstep : ∀ {m : Machine} {h : Heap Native}, m.heap.Change h → m.Reachable →
      Reachable { m with heap := h } :=
    fun hc hm => hm.moves (.single (.change (.heap _ hc)))
  refine Reachable.push ?_ (.int 1) (m := { interrupted with stack := #[] })
  exact hstep (.userMeta 0 (some 2)) (hstep (.newUserdata 0)
    (hstep (.entry 2 (.string Metafield.finalizer.id) (.function 0))
      (hstep (.newFunction _) (hstep .newTable (reachable_create { collectInterval := some 6 })))))

/-- The same with a new table on top. -/
def tabled : Machine := { interrupted with heap := interrupted.heap.newTable.2 }.push (.table 3)

theorem newTable_interrupted : (newTable : Act Empty Unit) host interrupted = .ok () tabled := rfl

/-- The same with the key of a pair above the table. -/
def midPair : Machine := tabled.push (.int 1)

theorem midPair_reachable : midPair.Reachable :=
  ((interrupted_reachable.moves (.single (.change (.heap _ .newTable)))).push _).push _

theorem midPair_due : midPair.Due 0 := by
  refine ⟨_, rfl, fun hr => ?_, rfl, by decide⟩
  have hmem := hr.mem [⟨.table, 0⟩, ⟨.table, 1⟩, ⟨.table, 3⟩] (by decide) (by decide)
  simp at hmem

theorem midPair_kept (hr : r = ⟨.userdata, 0⟩ ∨ r = ⟨.table, 2⟩ ∨ r = ⟨.function, 0⟩) :
    midPair.Kept r := by
  have hdue : midPair.heap.Reaches (fun v => ∃ slot, midPair.Due slot ∧ v = .userdata slot)
      ⟨.userdata, 0⟩ := .start ⟨0, midPair_due, rfl⟩ rfl
  have htable : midPair.heap.Reaches (fun v => ∃ slot, midPair.Due slot ∧ v = .userdata slot)
      ⟨.table, 2⟩ := .step hdue (.userMeta rfl rfl) rfl
  rcases hr with rfl | rfl | rfl
  · exact .inr hdue
  · exact .inr htable
  · have hin : Value.function 0 ∈ midPair.heap.references ⟨.table, 2⟩ := by decide
    exact .inr (.step htable (Heap.mem_references.mp hin) rfl)

theorem userdata?_midPair {slot : Nat} {u : Userdata} (hu : midPair.heap.userdata? slot = some u) :
    slot = 0 := by
  cases slot with
  | zero => rfl
  | succ slot => cases hu

theorem midPair_queue : midPair.cycle.1 = [0] := cycle_queue_singleton midPair_due userdata?_midPair

/-- The cycle finds the userdata, and its finalizer closes the machine. -/
theorem collect_midPair : ∃ freed m',
    (collect : Act Empty Nat) closingHost midPair = .ok freed m' ∧ m'.Emptied := by
  have hsound := midPair_reachable.heap_sound
  have hsame := fun r hr => contents?_cycle_of_kept hsound (midPair_kept (r := r) hr)
  have hthere : midPair.heap.userdata? 0 = some _ := rfl
  have huserdata := userdata?_cycle_of_kept hsound hthere (midPair_kept (.inl rfl))
  have htable := Heap.contents?_table.mp ((hsame ⟨.table, 2⟩ (.inr (.inl rfl))).trans rfl)
  have hfunction := Heap.contents?_function.mp ((hsame ⟨.function, 0⟩ (.inr (.inr rfl))).trans rfl)
  obtain ⟨m', hrun, hcollect⟩ := collect_open (ε := Empty) (m := midPair) closingHost rfl
  obtain ⟨heap, events, heq⟩ := midPair.cycle_eq
  have hf := metafield_beginTurn (f := 0) huserdata rfl htable rfl
  have hlimit : (midPair.cycle.2.2.prepared 0 0).atLimit = false := by
    obtain ⟨events', heq'⟩ := turned_eq midPair.cycle.2.2 0
    rw [prepared, heq', heq]
    rfl
  have hqueue : (midPair.cycle.2.2.turned 0).shut.1 = [] := by
    rw [List.eq_nil_iff_forall_not_mem]
    intro slot hslot
    obtain ⟨u, hu, hflag⟩ := mem_shut_queue_inv hslot
    obtain ⟨events', heq'⟩ := turned_eq midPair.cycle.2.2 0
    rw [heq'] at hu hflag
    have hlt := (cycle_sound hsound).flagged huserdata
    obtain rfl := userdata?_midPair (userdata?_cycle hu)
    simp [Heap.isFinalized, Heap.setFinalized, hlt] at hflag
  obtain ⟨m'', hturn, hempty⟩ := finalize_closing (ε := Empty) (m := midPair.cycle.2.2) (by rw [heq]; rfl) hf
    hfunction hlimit hqueue
  refine ⟨_, m', hcollect, ?_⟩
  rw [midPair_queue] at hrun
  have hturns : (finalizeAll [0] : Act Empty Unit) closingHost midPair.cycle.2.2 = .ok () m'' := bind_ok hturn
  rw [hturns] at hrun
  cases hrun
  exact hempty


/-- A table with a table under a number. -/
def nested : List Element := [.table [.pair (.scalar .integer) (.table [])]]

def nestedFormat : List Directive := [.openTable, .key, .integer, .openTable, .closeTable, .closeTable]

theorem wellFormed_nested : ∀ e ∈ nested, e.WellFormed 0 .plain := by
  intro e he
  rw [List.mem_singleton.mp he]
  refine .table (by decide) fun e he => ?_
  rw [List.mem_singleton.mp he]
  exact .pair (by decide) (.scalar rfl) (.table (by decide) (by simp))

theorem listDirectives_nested : Element.listDirectives nested = nestedFormat := by
  simp [nested, nestedFormat, Element.listDirectives, Element.directives]

theorem elements_nested : Format.elements nestedFormat = nested :=
  listDirectives_nested ▸ Format.elements_listDirectives wellFormed_nested

theorem accepts_nested : Format.Accepts nestedFormat [.int 1] := by
  refine ⟨nested, wellFormed_nested, listDirectives_nested,
    ⟨[.int 1], [], rfl, .cons rfl .nil⟩, fun p hp => ?_⟩
  simp only [nested, Element.spotsAll, Element.spots, List.append_nil, List.mem_singleton] at hp
  subst hp
  constructor <;> simp [Directive.takesArgument]

/-- The table at the value of the pair is made in a machine without the other values. -/
theorem newTable_midPair : ∃ slot m', (newTable : Act Empty Unit) closingHost midPair = .ok () m' ∧
    m'.closed = true ∧ m'.frames = [] ∧ m'.stack = #[.table slot] := by
  obtain ⟨freed, m', hrun, hempty⟩ := collect_midPair
  have hdue : (collectIfDue : Act Empty Unit) closingHost midPair = .ok () m' := bind_ok hrun
  refine ⟨m'.heap.newTable.1, { m' with heap := m'.heap.newTable.2 }.push (.table m'.heap.newTable.1),
    bind_ok hdue, hempty.closed, hempty.frames, ?_⟩
  rw [push, hempty.stack]
  rfl

/-- With one value on the stack there is no table below a key and a value. -/
theorem rawSet_alone {v : Value} (hstack : m.stack = #[v]) (hframes : m.frames = []) :
    ∃ e, Op.rawSet (.fromTop 3) m = .error e m := by
  have hvalue : m.value (m.absolute (.fromTop 3)) = .nil := by
    simp [absolute, value, position?, top, base, hstack, hframes]
  refine ⟨.ofFault (.tableExpected (m.describe .nil)), ?_⟩
  rw [Op.rawSet, Op.run_bind, Op.run_get]
  dsimp only
  rw [Op.run_bind, Op.tableAt, Op.run_bind, Op.run_get]
  dsimp only
  rw [hvalue]
  rfl

/-- The pair has lost its table and its key when it is to be stored. -/
theorem pair_interrupted (n : Nat) : ∃ slot, Reading.Meets closingHost [.int 1] (· = tabled)
    (Reading.element { start := n } (.pair (.scalar .integer) (.table []))) (fun _ _ _ => False)
    (fun m => m.stack = #[.table slot] ∧ m.frames = [] ∧ m.closed = true) := by
  obtain ⟨slot, m', hmade, hclosed, hframes, hstack⟩ := newTable_midPair
  refine ⟨slot, ?_⟩
  rw [Reading.element, Reading.element, Reading.element]
  refine .bind (Q := fun _ _ m => m = midPair) (fun m hm => ?_) fun _ rest =>
    .bind (Q := fun _ _ m => m = m') ?_ fun _ rest => ?_
  · subst hm
    exact ⟨.ok (), [], midPair, rfl, rfl⟩
  · refine .bind (Q := fun _ _ m => m = m') (.perform fun m hm => ?_) fun _ rest =>
      .machine_bind fun m hm => ?_
    · subst hm
      exact ⟨(), _, hmade, rfl⟩
    · rw [Reading.items]
      exact .pure fun m₁ hm₁ => hm₁.trans hm
  · refine .ite (fun _ => .orFail fun m hm => ?_) fun h => absurd rfl h
    subst hm
    obtain ⟨e, hrun⟩ := rawSet_alone hstack hframes
    rw [run_lift, hrun]
    exact ⟨hstack, hframes, hclosed⟩

theorem format_interrupted (n : Nat) : ∃ e slot m',
    Reading.format n nestedFormat [.int 1] closingHost interrupted = .ok (some e) m' ∧
      m'.stack = #[.table slot] ∧ m'.frames = [] ∧ m'.closed = true := by
  obtain ⟨slot, hpair⟩ := pair_interrupted n
  have hread : Reading.Meets closingHost [.int 1] (· = interrupted) (Reading.all { start := n } nested)
      (fun _ _ _ => False) (fun m => m.stack = #[.table slot] ∧ m.frames = [] ∧ m.closed = true) := by
    rw [nested, Reading.all, Reading.element]
    refine .bind (Q := fun _ _ _ => False) (.bind (Q := fun _ rest m => m = tabled ∧ rest = [.int 1])
      (.perform fun m hm => ?_) fun _ rest => .and_pre fun hrest => ?_) fun _ _ _ h => h.elim
    · subst hm
      exact ⟨(), _, newTable_interrupted, rfl, rfl⟩
    · subst hrest
      refine .machine_bind fun m hm => ?_
      rw [Reading.items]
      refine .machine_bind fun m' hm' => ?_
      subst hm hm'
      exact .bind (Q := fun _ _ _ => False) hpair fun _ _ _ h => h.elim
  obtain ⟨r, rest, m', hrun, htried⟩ := hread interrupted rfl
  rw [← elements_nested] at hrun
  cases r with
  | ok a => exact htried.elim
  | error e => exact ⟨e, slot, m', bind_ok hrun, htried⟩

/-- A format that the arguments suit is not read to its end: the table that its pair belongs to is gone
    when the machine has been closed. -/
theorem interrupted_format : interrupted.Reachable ∧ closingHost.Lawful ∧ SelfContained nestedFormat ∧
    Format.Accepts nestedFormat [.int 1] ∧
      ¬ ∃ m', Reading.format 1 nestedFormat [.int 1] closingHost interrupted = .ok none m' := by
  refine ⟨interrupted_reachable, Programs.host_lawful 1, ?_, accepts_nested, ?_⟩
  · simp [SelfContained, nestedFormat, Directive.isSelfContained]
  rintro ⟨m', hread⟩
  obtain ⟨e, slot, m'', hrun, -⟩ := format_interrupted 1
  rw [hread] at hrun
  cases hrun

/-- Marshaling pushes one value for every element outside of tables that no false condition suppresses,
    or fails and leaves the stack as it was, unless the machine is closed meanwhile. Without globals
    and finalizers it changes no table that was there, as long as no cycle misses the table; and
    none misses what the roots reach. -/
theorem Reachable.marshal_all_or_nothing (hm : m.Reachable) (hhost : host.Lawful) (ds : List Directive)
    (args : List Argument) :
    ((Op.after (Act.marshal ds args host) m).closed = m.closed →
      Act.Ended (fun n m' => n = Element.unsuppressed (Format.elements ds) args ∧
          ∃ vs, vs.length = n ∧ m'.stack.toList = m.stack.toList ++ vs)
        (fun m' => m'.stack = m.stack) (Act.marshal ds args host m)) ∧
    (.global ∉ ds → Silent m (Op.after (Act.marshal ds args host) m) →
      (∀ r, m.Reached r → Retains (.object r) m (Op.after (Act.marshal ds args host) m)) ∧
      ∀ slot t, m.heap.tables.get? slot = some t →
        Retains (.table slot) m (Op.after (Act.marshal ds args host) m) →
        (Op.after (Act.marshal ds args host) m).heap.tables.get? slot = some t) := by
  obtain ⟨problem, m', hrun, hdone, hstopped⟩ := Reading.format_meets hhost hm (m.top + 1) ds args
  have hsafe : (Act.safely (Reading.format (m.top + 1) ds args) : Act FormatError (Option FormatError)) host m =
      .ok problem m' := by
    rw [Act.safely, Act.run_mapError, hrun]
  cases problem with
  | none =>
      have hread : Act.marshal ds args host m = .ok (m'.top - m.top) m' := by
        rw [Act.marshal, Act.run_bind, Act.run_get]
        exact (Act.bind_ok hsafe).trans rfl
      obtain ⟨-, hmid⟩ := hdone rfl
      rw [Op.after_ok hread, hread]
      refine ⟨fun hc => ?_, fun hglobal hsilent => (hmid.beside hglobal hsilent).tables⟩
      obtain ⟨vs, hlength, hl⟩ := hmid.shape hc
      have hcount : m'.top - m.top = vs.length := by
        have hframed : m.base ≤ m.stack.size := hm.framed
        rw [hl.top, List.length_append, Array.length_toList, Machine.top]
        omega
      exact ⟨hcount.trans hlength, vs, hcount.symm, hl.stack⟩
  | some e =>
      have hread : Act.marshal ds args host m = .error e (m'.setTop m.top) := by
        rw [Act.marshal, Act.run_bind, Act.run_get]
        exact (Act.bind_ok hsafe).trans rfl
      have hmid := hstopped (by simp)
      obtain ⟨stack, hstack⟩ := setTop_eq m' m.top
      rw [Op.after_error hread, hread]
      refine ⟨fun hc => ?_, fun hglobal hsilent => ?_⟩
      · have hover := (hmid.shape (by rw [← hc, hstack])).1
        have hframed : m.base ≤ m.stack.size := hm.framed
        have hl := hover.setTop (n := m.top) (by rw [Array.length_toList, Machine.top]; omega)
        exact Array.toList_inj.mp hl.stack
      · rw [hstack] at hsilent ⊢
        exact (hmid.beside hglobal hsilent).of_eq.tables

theorem create_marshal_all_or_nothing : ∃ m',
    Act.marshal [.integer] [.int 7] (Programs.host [] 1) (create {}) = .ok 1 m' ∧
      (∃ vs, vs.length = 1 ∧ m'.stack.toList = (create {}).stack.toList ++ vs) ∧
      m'.heap.tables.get? 0 = some {} := by
  have hhost : (Programs.host [] 1).Lawful := Programs.host_lawful 1
  have hread : Act.marshal [.integer] [.int 7] (Programs.host [] 1) (create {}) =
      .ok 1 ((create {}).pushInt 7) := by
    have hformat : (Act.safely (Reading.format 1 [.integer] [.int 7]) :
        Act FormatError (Option FormatError)) (Programs.host [] 1) (create {}) =
          .ok none ((create {}).pushInt 7) := by
      rw [Act.safely, Act.run_mapError, format_integer]
    exact Act.bind_ok hformat
  obtain ⟨hended, hleft⟩ := (reachable_create {}).marshal_all_or_nothing hhost [.integer] [.int 7]
  rw [Op.after_ok hread, hread] at hended
  rw [Op.after_ok hread] at hleft
  obtain ⟨hreached, htables⟩ := hleft (by simp) rfl
  exact ⟨_, hread, (hended rfl).2, htables 0 {} rfl (hreached ⟨.table, 0⟩ (.start .registry rfl))⟩

/-- Marshaling fails and leaves another stack than it found: when the machine has been closed the number
    is gone, and the table that is made next takes its place. -/
theorem interrupted_marshal : interrupted.Reachable ∧ closingHost.Lawful ∧
    ∃ e m', Act.marshal nestedFormat [.int 1] closingHost interrupted = .error e m' ∧
      m'.stack ≠ interrupted.stack := by
  obtain ⟨e, slot, m', hrun, hstack, hframes, -⟩ := format_interrupted 2
  have hsafe : (Act.safely (Reading.format 2 nestedFormat [.int 1]) : Act FormatError (Option FormatError))
      closingHost interrupted = .ok (some e) m' := by
    rw [Act.safely, Act.run_mapError, hrun]
  have hkept : (m'.setTop 1).stack = #[.table slot] := by
    simp [setTop, resize, base, hframes, hstack]
  refine ⟨interrupted_reachable, Programs.host_lawful 1, e, m'.setTop 1, Act.bind_ok hsafe, ?_⟩
  rw [hkept]
  simp [interrupted]

end Machine

end ScriptHost
