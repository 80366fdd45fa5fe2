import ScriptHost.Proofs.AllOrNothing
import ScriptHost.Proofs.MarshaledCall
import ScriptHost.Proofs.PairKeys
import ScriptHost.Proofs.Spec.Class

/-! # What slot references name

A reference counted back from where marshaling started names a value below the callee, wherever in the
format it stands: whatever an entry point pushes for its callee and whatever was read before, these values
still lie at the bottom of the stack. A reference counted back from the top names a value of the stack as it
stands then.
-/

namespace ScriptHost

open Machine

/-- An entry point that marshals arguments. -/
inductive EntryPoint where
  /-- The values are pushed, and nothing is called. -/
  | marshal
  | invocation (callee : Act.Callee) (wanted : Int) (protection : Protection)
  /-- A call of the function below so many values that were pushed before. -/
  | prepared (count : Nat) (wanted : Int) (protection : Protection)
  /-- A new instance of the class of a name. -/
  | newInstance (name : String)

namespace EntryPoint

variable {host : Host} {m m' start : Machine} {n : Nat} {entry : EntryPoint} {ds : List Directive}
  {args : List Argument} {problem : FormatError}

/-- The values of the stack below what an entry point calls, or pushes. -/
def below (m : Machine) : EntryPoint → List Value
  | .marshal | .newInstance _ => m.stack.toList
  | .invocation callee _ _ => callee.stackBelow m
  | .prepared count _ _ => m.stack.toList.take (m.stack.size - (count + 1))

/-- From where an entry point counts references back, and on which machine it starts to read its format. -/
inductive Starts (host : Host) (m : Machine) : EntryPoint → Nat → Machine → Prop where
  | marshal : Starts host m .marshal (m.top + 1) m
  | invocation {callee wanted protection count start} :
      Act.pushCallee callee host { m with callSite := true } = .ok count start → count + 1 ≤ start.top →
      Starts host m (.invocation callee wanted protection) (start.top - count) start
  | prepared {count wanted protection} : count + 1 ≤ m.top →
      Starts host m (.prepared count wanted protection) (m.top - count) m
  | newInstance {name made} : Act.pushClassFunction .classNew host m = .ok () made →
      1 + 1 ≤ (made.pushText name).top →
      Starts host m (.newInstance name) ((made.pushText name).top - 1) (made.pushText name)

/-- An entry point fails, and the error is that of its format and arguments. -/
def FailsWith (host : Host) (m : Machine) (ds : List Directive) (args : List Argument) (problem : FormatError) :
    EntryPoint → Prop
  | .marshal => ∃ m', Act.marshal ds args host m = .error problem m'
  | .invocation callee wanted protection => ∃ m',
      Act.invocation callee wanted ds args protection host m = .error (.runtime problem.message) m'
  | .prepared count wanted protection => ∃ m',
      Act.callMarshaled count wanted ds args protection host m = .error (.runtime problem.message) m'
  | .newInstance name => ∃ m', Act.newInstance name ds args host m = .error (.runtime problem.message) m'

theorem Starts.failsWith (h : entry.Starts host m n start)
    (hread : Reading.format n ds args host start = .ok (some problem) m') :
    entry.FailsWith host m ds args problem := by
  cases h with
  | marshal => exact ⟨_, Act.marshal_problem hread⟩
  | @invocation callee wanted protection count start hpushed hcount =>
      obtain ⟨height, hfails⟩ := Act.callMarshaled_problem wanted protection hcount hread
      refine ⟨m'.setTop height, ?_⟩
      rw [Act.invocation, Act.run_bind, Act.run_modify]
      exact (Act.bind_ok hpushed).trans hfails
  | @prepared count wanted protection hcount =>
      obtain ⟨height, hfails⟩ := Act.callMarshaled_problem wanted protection hcount hread
      exact ⟨_, hfails⟩
  | @newInstance name made hpushed hcount =>
      obtain ⟨height, hfails⟩ := Act.callMarshaled_problem 1 .unguarded hcount hread
      refine ⟨m'.setTop height, (Act.bind_ok hpushed).trans ?_⟩
      change (Act.callMarshaled 1 1 ds args .unguarded >>= fun _ => pure () : Act ScriptError Unit) host
        (made.pushText name) = _
      rw [Act.run_bind, hfails]

/-- What lay below a callee lies at the bottom of the stack, right below the callee, once that was pushed. -/
theorem over_callee {callee : Act.Callee} {count : Nat} (hhost : host.Lawful) (hm : m.Framed)
    (hpushed : Act.pushCallee callee host { m with callSite := true } = .ok count start)
    (hcount : count + 1 ≤ start.top) : Runs [] m start ∧ (start.closed = m.closed →
      Over m.base (callee.stackBelow m) start ∧
      m.base + (start.top - count) = (callee.stackBelow m).length + 1) := by
  have hcalled : Runs [] m { m with callSite := true } := (Change.host _ _ _ _ _).leads hm
  have hruns := (Act.pushCallee_lawful callee).run_ok hhost (hcalled.framed hm) hpushed
  refine ⟨hcalled.trans_nil hruns, fun hc => ?_⟩
  have hl : Laid m.base m.stack.toList { m with callSite := true } := ⟨rfl, rfl⟩
  by_cases hcallee : callee = .onTop
  · subst hcallee
    cases hpushed
    change 0 + 1 ≤ m.top at hcount
    have htop : m.top = m.stack.size - m.base := rfl
    have hbelow : Act.Callee.onTop.stackBelow m = m.stack.toList.dropLast := if_neg (by omega)
    refine ⟨⟨rfl, ?_⟩, ?_⟩
    · change Act.Callee.onTop.stackBelow m <+: m.stack.toList
      rw [hbelow]
      exact List.dropLast_prefix _
    · change m.base + (m.top - 0) = (Act.Callee.onTop.stackBelow m).length + 1
      rw [hbelow, List.length_dropLast, Array.length_toList]
      omega
  · have hbelow := Act.Callee.stackBelow_of_ne m hcallee
    have hafter : (Op.after (Act.pushCallee callee host) { m with callSite := true }).closed = m.closed := by
      rw [Op.after_ok hpushed]
      exact hc
    have hfound : ¬ callee.Missing host { m with callSite := true } := fun hmissing => by
      have hfails := Act.pushCallee_missing hhost (hcalled.framed hm) hl hmissing hafter
      rw [hpushed] at hfails
      exact hfails
    have hready := Act.pushCallee_ready hhost (hcalled.framed hm) hl hcallee hfound hafter
    rw [hpushed] at hready
    obtain ⟨f, given, hl', hgiven⟩ := hready
    have htop := hl'.top
    simp only [List.length_append, List.length_cons, hgiven] at htop
    rw [hbelow]
    exact ⟨hl'.over, by omega⟩

/-- The function that makes instances is pushed with the name of the class above it. -/
theorem over_classNew {name : String} {made : Machine} (hhost : host.Lawful) (hm : m.Framed)
    (hpushed : Act.pushClassFunction .classNew host m = .ok () made) :
    Runs [] m (made.pushText name) ∧ ((made.pushText name).closed = m.closed →
      Over m.base m.stack.toList (made.pushText name) ∧
      m.base + ((made.pushText name).top - 1) = m.stack.toList.length + 1) := by
  have hruns := (Act.pushClassFunction_lawful .classNew).run_ok hhost hm hpushed
  have hnamed : Runs [] made (made.pushText name) := leads_pushText (hruns.framed hm)
  refine ⟨hruns.trans_nil hnamed, fun hc => ?_⟩
  obtain ⟨f, hl⟩ := (Act.pushClassFunction_spec .classNew m.stack.toList).ok hhost hm ⟨rfl, rfl⟩ hpushed hc
  obtain ⟨text, hl'⟩ := Reading.pushed_pushText made hl
  have hframed : m.base ≤ m.stack.toList.length := hm
  have htop := hl'.top
  simp only [List.length_append, List.length_singleton] at htop
  exact ⟨hl'.over.below, by omega⟩

/-- When an entry point starts to read, what lay below its callee lies at the bottom of the stack, right below
    the position that it counts back from. -/
theorem Starts.over (h : entry.Starts host m n start) (hhost : host.Lawful) (hm : m.Framed) :
    Runs [] m start ∧ (start.closed = m.closed →
      Over m.base (entry.below m) start ∧ m.base + n = (entry.below m).length + 1) := by
  have hsize : m.base + m.top = m.stack.toList.length := by
    rw [Array.length_toList, Machine.top, Nat.add_sub_cancel' hm]
  cases h with
  | marshal =>
      refine ⟨.refl m, fun _ => ⟨⟨rfl, List.prefix_refl _⟩, ?_⟩⟩
      change m.base + (m.top + 1) = m.stack.toList.length + 1
      omega
  | invocation hpushed hcount => exact over_callee hhost hm hpushed hcount
  | @prepared count wanted protection hcount =>
      refine ⟨.refl m, fun _ => ⟨⟨rfl, List.take_prefix _ _⟩, ?_⟩⟩
      change m.base + (m.top - count) = (m.stack.toList.take (m.stack.size - (count + 1))).length + 1
      rw [List.length_take]
      rw [Array.length_toList] at hsize ⊢
      omega
  | newInstance hpushed => exact over_classNew hhost hm hpushed

end EntryPoint

namespace Reading

variable {host : Host} {m : Machine} {b n k : Nat} {below : List Value} {v : Value}

/-- Counted back from right above some values, a reference names one of them, or none. -/
theorem resolveIndex_back (h : Over b below m) (hn : b + n = below.length + 1) (hk : 0 < k)
    (hv : (below.drop b).reverse[k - 1]? = some v) :
    ∃ j, resolveIndex m n (.fromTop k) = some j ∧ m.value j = v := by
  obtain ⟨hlt, -⟩ := List.getElem?_eq_some_iff.mp hv
  rw [List.length_reverse, List.length_drop] at hlt
  rw [List.getElem?_reverse (by rw [List.length_drop]; exact hlt), List.getElem?_drop, List.length_drop] at hv
  have hsize := h.size_le
  have htop : m.top = m.stack.size - b := by rw [Machine.top, h.base]
  refine ⟨.fromBottom (n - k), if_neg (by omega), ?_⟩
  have hposition : m.position? (.fromBottom (n - k)) = some (b + (n - k) - 1) := by
    rw [position?, h.base]
    exact if_pos (by omega)
  have hstack : m.stack[b + (n - k) - 1]? = some v := by
    obtain ⟨above, habove⟩ := h.stack
    rw [← Array.getElem?_toList, ← habove, List.getElem?_append_left (by omega), ← hv]
    congr 1
    omega
  change ((m.position? (.fromBottom (n - k))).bind fun p => m.stack[p]?).getD .nil = v
  rw [hposition, Option.bind_some, hstack, Option.getD_some]

theorem resolveIndex_beyond (hn : b + n = below.length + 1) (hk : (below.drop b).length < k) :
    resolveIndex m n (.fromTop k) = none := by
  rw [List.length_drop] at hk
  exact if_pos (by omega)

/-- Negative numbers count back, as far as 32 bits go. -/
theorem argumentIndex_back {a : Argument} (hk : 0 < k) (ha : a = .int (-(k : Int)) ∨ a = .index (.fromTop k)) :
    argumentIndex a = if a = .int (-(k : Int)) → k ≤ 2 ^ 31 then .ok (.fromTop k) else .error .badIndex := by
  rcases ha with rfl | rfl
  · have hindex : StackIndex.ofInt (-(k : Int)) = .fromTop k := by
      rw [StackIndex.ofInt, if_pos (by omega), Int.natAbs_neg, Int.natAbs_natCast]
    simp only [argumentIndex, hindex, true_implies]
    split <;> split <;> first | rfl | omega
  · rw [if_pos (by rintro ⟨⟩)]
    rfl

/-- How a slot element at a position reads a reference to the last value but `k - 1` of some values. The value
    is pushed if it is there and no key that is refused. -/
structure Names (host : Host) (p : Position) (k : Nat) (fits : Prop) (vs : List Value) (rest : List Argument)
    (failsWith : FormatError → Prop) : Prop where
  pushed : ∀ v, fits → vs.reverse[k - 1]? = some v → (p.mode.asKey = true → v.refusal? = none) →
    Yields (element p.mode p.element) host p.args p.machine () rest (p.machine.push v)
  refused : ∀ v problem, fits → vs.reverse[k - 1]? = some v → p.mode.asKey = true →
    v.refusal? = some problem → failsWith problem
  missing : vs.length < k ∨ ¬ fits → failsWith .badIndex

theorem names_back {p : Position} (relative : Bool) {a : Argument} {rest : List Argument}
    {failsWith : FormatError → Prop} (h : Over b below p.machine)
    (hn : b + p.mode.origin relative p.machine = below.length + 1)
    (hslot : element p.mode p.element = slot p.mode relative)
    (hopen : p.mode.suppressed = false) (hargs : p.args = a :: rest) (hk : 0 < k)
    (ha : a = .int (-(k : Int)) ∨ a = .index (.fromTop k))
    (hfails : ∀ problem, p.Fails host problem rest p.machine → failsWith problem) :
    Names host p k (a = .int (-(k : Int)) → k ≤ 2 ^ 31) (below.drop b) rest failsWith := by
  have hindex := argumentIndex_back hk ha
  have hfailed : ∀ problem, Fails (slot p.mode relative) host (a :: rest) p.machine problem rest p.machine →
      failsWith problem := by
    intro problem h
    refine hfails problem ?_
    rw [Position.Fails, hslot, hargs]
    exact h
  refine ⟨fun v hfits hv hkey => ?_, fun v problem hfits hv hkey hrefused => hfailed _ ?_,
    fun hmissing => hfailed _ ?_⟩
  · rw [if_pos hfits] at hindex
    obtain ⟨j, hj, rfl⟩ := resolveIndex_back h hn hk hv
    rw [hslot, hargs]
    exact slot_yields hindex hj hopen hkey
  · rw [if_pos hfits] at hindex
    obtain ⟨j, hj, rfl⟩ := resolveIndex_back h hn hk hv
    exact slot_refused hindex hj hkey hrefused
  · split at hindex
    · rename_i hfits
      have hbeyond := hmissing.resolve_right fun hmisfits => hmisfits hfits
      exact slot_missing hindex (resolveIndex_beyond hn hbeyond)
    · exact slot_misnamed hindex

end Reading

namespace Machine

variable {host : Host} {m start : Machine} {n k : Nat} {entry : EntryPoint}

/-- What slot references name, wherever in a format they are read. Counted back from the start they name the
    values of the frame that lay below the callee when the entry point was called, the last of them by 1; counted
    back from the top, the values of the frame as it stands. A value that is there is pushed, unless it is a key
    that is refused; where there is none, marshaling fails. -/
theorem Reachable.slot_reference (hm : m.Reachable) (hhost : host.Lawful) {ds : List Directive}
    {args rest : List Argument} {a : Argument} {p : Reading.Position}
    (hstarts : entry.Starts host m n start)
    (hreach : Reading.Reaches host { start := n } (Format.elements ds) args start p)
    (hopen : p.mode.suppressed = false) (hkept : p.machine.closed = m.closed) (hargs : p.args = a :: rest)
    (hk : 0 < k) (ha : a = .int (-(k : Int)) ∨ a = .index (.fromTop k)) :
    (p.element = .scalar .slotFromStart →
      Reading.Names host p k (a = .int (-(k : Int)) → k ≤ 2 ^ 31) ((entry.below m).drop m.base) rest
        fun problem => entry.FailsWith host m ds args problem) ∧
    (p.element = .scalar .slotFromTop →
      Reading.Names host p k (a = .int (-(k : Int)) → k ≤ 2 ^ 31) p.machine.own rest
        fun problem => entry.FailsWith host m ds args problem) := by
  obtain ⟨hruns, hover⟩ := hstarts.over hhost hm.framed
  have hstart := hm.runs hruns
  obtain ⟨own, s, inside, hstands⟩ := hreach.stands hhost hstart
  obtain ⟨hc, hc'⟩ := hruns.closed_between hstands.midway.runs hm.framed hkept
  obtain ⟨hover, hn⟩ := hover hc
  have hl := hstands.midway.shape hc'
  have hfails : ∀ problem, p.Fails host problem rest p.machine → entry.FailsWith host m ds args problem :=
    fun problem h => hstarts.failsWith (hreach.format_eq h)
  refine ⟨fun helement => ?_, fun helement => ?_⟩
  · have hlow : Over m.base (entry.below m) p.machine := by
      refine ⟨hl.base.trans hover.base, ?_⟩
      rw [hl.stack]
      exact hover.stack.trans hstands.stack
    refine Reading.names_back false hlow ?_ ?_ hopen hargs hk ha hfails
    · rw [Reading.Mode.origin, if_neg Bool.false_ne_true, hreach.start_eq]
      exact hn
    · rw [helement, Reading.element]
      rfl
  · have hself : Over p.machine.base p.machine.stack.toList p.machine := ⟨rfl, List.prefix_refl _⟩
    refine Reading.names_back true hself ?_ ?_ hopen hargs hk ha hfails
    · have hframed : p.machine.base ≤ p.machine.stack.size := hstands.midway.framed hstart.framed
      rw [Reading.Mode.origin, if_pos rfl, Array.length_toList, Machine.top]
      omega
    · rw [helement, Reading.element]
      rfl

/-- A truth value, and a reference counted back from the start. -/
def referring : List Directive := [.constTrue, .slotFromStart]

theorem elements_referring : Format.elements referring = [.scalar .constTrue, .scalar .slotFromStart] := by
  simp [referring, Format.elements, Format.element]

/-- Below the function lies one value: 1 names it, past the argument that was pushed before and the value that
    was read before, and 2 names none. -/
theorem echoing_slot_reference : echoing.Reachable ∧ (Programs.host [] 1).Lawful ∧
    Reading.Yields (Reading.element { start := 2 } (.scalar .slotFromStart)) (Programs.host [] 1) [.int (-1)]
      (echoing.push (.bool true)) () [] ((echoing.push (.bool true)).push (.int 7)) ∧
    EntryPoint.FailsWith (Programs.host [] 1) echoing referring [.int (-2)] .badIndex (.prepared 1 0 .unguarded) := by
  have hhost : (Programs.host [] 1).Lawful := Programs.host_lawful 1
  have hreach : ∀ k : Nat, Reading.Reaches (Programs.host [] 1) { start := 2 } (Format.elements referring)
      [.int (-(k : Int))] echoing
      ⟨{ start := 2 }, .scalar .slotFromStart, [.int (-(k : Int))], echoing.push (.bool true)⟩ := by
    intro k
    rw [elements_referring]
    have hread : Reading.Yields (Reading.all { start := 2 } [.scalar .constTrue]) (Programs.host [] 1)
        [.int (-(k : Int))] echoing () [.int (-(k : Int))] (echoing.push (.bool true)) := by
      rw [Reading.all, Reading.element]
      exact .bind (.perform rfl) (.pure ())
    have hsplit : [Element.scalar .constTrue, .scalar .slotFromStart] =
        [.scalar .constTrue] ++ .scalar .slotFromStart :: [] := rfl
    exact .outer hsplit hread
  have hstarts : EntryPoint.Starts (Programs.host [] 1) echoing (.prepared 1 0 .unguarded) 2 echoing :=
    .prepared (by decide)
  refine ⟨echoing_reachable, hhost, ?_, ?_⟩
  · obtain ⟨hstart, -⟩ := echoing_reachable.slot_reference hhost hstarts (hreach 1) rfl rfl rfl (by decide) (.inl rfl)
    exact (hstart rfl).pushed (.int 7) (fun _ => by decide) rfl Bool.noConfusion
  · obtain ⟨hstart, -⟩ := echoing_reachable.slot_reference hhost hstarts (hreach 2) rfl rfl rfl (by decide) (.inl rfl)
    exact (hstart rfl).missing (.inl (by decide))

/-- A table without items, two truth values, and a reference counted back from the start. -/
def trailing : List Element := [.table [], .scalar .constTrue, .scalar .constTrue, .scalar .slotFromStart]

theorem elements_trailing : Format.elements (Element.listDirectives trailing) = trailing := by
  refine Format.elements_listDirectives fun e he => ?_
  simp only [trailing, List.mem_cons, List.not_mem_nil, or_false] at he
  rcases he with rfl | rfl | rfl | rfl
  · exact .table (by decide) (by simp)
  · exact .scalar rfl
  · exact .scalar rfl
  · exact .scalar rfl

/-- The finalizer that runs when the table is made closes the machine and drops the stack: the reference
    names what was pushed since. -/
theorem marshal_trailing : ∃ slot m',
    Act.marshal (Element.listDirectives trailing) [.int (-3)] closingHost midPair = .ok 1 m' ∧
      m'.stack = #[.table slot, .bool true, .bool true, .table slot] := by
  obtain ⟨slot, m₁, hmade, -, hframes, hstack⟩ := newTable_midPair
  have hl : Laid 0 ([] ++ .table slot :: [.bool true, .bool true]) ((m₁.push (.bool true)).push (.bool true)) := by
    have hmade : Laid 0 [.table slot] m₁ := ⟨by rw [base, hframes], by rw [hstack]⟩
    exact (hmade.push (v := .bool true)).push
  have htop : ((m₁.push (.bool true)).push (.bool true)).top = 3 := hl.top
  have hvalue : ((m₁.push (.bool true)).push (.bool true)).value (.fromBottom 1) = .table slot :=
    hl.value_fromBottom (Nat.le_refl 0) rfl
  have hlast : Reading.Yields (Reading.slot { start := 4 } false) closingHost [.int (-3)]
      ((m₁.push (.bool true)).push (.bool true)) () []
      (((m₁.push (.bool true)).push (.bool true)).pushAt (.fromBottom 1)) :=
    Reading.slot_yields rfl (if_neg (by rw [htop]; change ¬ (1 = 0 ∨ 3 < 1); decide)) rfl Bool.noConfusion
  have hread : Reading.Yields (Reading.all { start := 4 } trailing) closingHost [.int (-3)] midPair () []
      (((m₁.push (.bool true)).push (.bool true)).pushAt (.fromBottom 1)) := by
    simp only [trailing, Reading.all, Reading.element, Reading.items]
    exact .bind (.bind (.perform hmade) (.bind .machine (.pure ())))
      (.bind (.perform rfl) (.bind (.perform rfl) (.bind hlast (.pure ()))))
  rw [← elements_trailing] at hread
  have hformat : (Act.safely (Reading.format 4 (Element.listDirectives trailing) [.int (-3)]) :
      Act FormatError (Option FormatError)) closingHost midPair = .ok none
        (((m₁.push (.bool true)).push (.bool true)).pushAt (.fromBottom 1)) := by
    rw [Act.safely, Act.run_mapError, Reading.format, Act.bind_ok hread]
    rfl
  refine ⟨slot, ((m₁.push (.bool true)).push (.bool true)).pushAt (.fromBottom 1), ?_, ?_⟩
  · rw [Act.marshal, Act.run_bind, Act.run_get]
    refine (Act.bind_ok hformat).trans ?_
    have hcount : (((m₁.push (.bool true)).push (.bool true)).pushAt (.fromBottom 1)).top = 4 := hl.push.top
    change EStateM.Result.ok ((((m₁.push (.bool true)).push (.bool true)).pushAt (.fromBottom 1)).top - 3) _ = _
    rw [hcount]
  · rw [pushAt, hvalue, push, push, push, hstack]
    rfl

/-- A machine with a nil on its stack. -/
def nilled : Machine := (create {}).push .nil

/-- The value that a reference names is not pushed once the machine was closed and the stack dropped, and
    nil is not pushed as a key. -/
theorem closing_slot_reference : midPair.Reachable ∧ closingHost.Lawful ∧
    midPair.own.reverse[3 - 1]? = some (.int 1) ∧ (∃ slot m',
      Act.marshal (Element.listDirectives trailing) [.int (-3)] closingHost midPair = .ok 1 m' ∧
      m'.stack = #[.table slot, .bool true, .bool true, .table slot]) ∧
    nilled.Reachable ∧ nilled.own.reverse[1 - 1]? = some .nil ∧ ∃ m₀,
      Reading.Reaches closingHost { start := nilled.top + 1 }
        (Format.elements (Element.listDirectives (paired .slotFromStart .constTrue))) [.int (-1)] nilled
        ⟨{ start := 2, asKey := true }, .scalar .slotFromStart, [.int (-1)], m₀⟩ ∧
      Reading.Fails (Reading.element { start := 2, asKey := true } (.scalar .slotFromStart)) closingHost [.int (-1)]
        m₀ .nullKey [] m₀ := by
  refine ⟨midPair_reachable, Programs.host_lawful 1, by decide, marshal_trailing, (reachable_create {}).push _, rfl, ?_⟩
  obtain ⟨m₀, hmade, hvalue, htop⟩ : ∃ m₀ : Machine,
      (Act.newTable : Act Empty Unit) closingHost nilled = .ok () m₀ ∧
        m₀.value (.fromBottom 1) = .nil ∧ m₀.top = 2 := ⟨_, rfl, rfl, rfl⟩
  refine ⟨m₀, ?_, ?_⟩
  · rw [elements_paired rfl rfl]
    exact .inner (reaches_paired hmade) .key
  · rw [Reading.element]
    refine Reading.slot_refused rfl (if_neg (by rw [htop]; change ¬ (1 = 0 ∨ 2 < 1); decide)) rfl ?_
    change (m₀.value (.fromBottom 1)).refusal? = _
    rw [hvalue]
    rfl

end Machine

end ScriptHost
