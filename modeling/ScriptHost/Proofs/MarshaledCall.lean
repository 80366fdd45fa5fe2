import ScriptHost.Proofs.Discipline
import ScriptHost.Proofs.Flaws

/-! # Marshaled calls

A marshaled call takes the function and the values above it off the stack, whatever happens, and leaves
what lay below them, with the results above it if the call succeeds. The function is called only when
the whole format was read.
-/

namespace ScriptHost

namespace Act

open Machine

variable {host : Host} {m m' : Machine} {count : Nat} {wanted : Int} {ds : List Directive}
  {args : List Argument} {protection : Protection} {e : ScriptError}

/-- What follows the reading of the format. -/
theorem callMarshaled_eq (wanted : Int) (protection : Protection) (hcount : count + 1 ≤ m.top)
    {problem : Option FormatError}
    (hread : Reading.format (m.top - count) ds args host m = .ok problem m') :
    callMarshaled count wanted ds args protection host m =
      callFormatted m.top count wanted protection problem host m' := by
  rw [callMarshaled, run_bind, run_get]
  dsimp only
  rw [if_neg (by omega), safely, run_bind, run_mapError, hread]

/-- A call whose format cannot be read is none: the stack is cut, and the error tells why. -/
theorem callMarshaled_problem (wanted : Int) (protection : Protection) (hcount : count + 1 ≤ m.top)
    {problem : FormatError}
    (hread : Reading.format (m.top - count) ds args host m = .ok (some problem) m') :
    ∃ height, callMarshaled count wanted ds args protection host m =
      .error (.runtime problem.message) (m'.setTop height) := by
  rw [callMarshaled_eq wanted protection hcount hread]
  exact ⟨_, rfl⟩

/-- A guarded call reports failures as messages. -/
theorem callProtected_guarded (h : callProtected .guarded count wanted host m = .error e m') :
    ∃ message, e = .runtime message := by
  rw [callProtected, run_bind, run_attempt] at h
  cases htraced : tracedCall count wanted host m with
  | ok u m₁ => simp [htraced] at h
  | error raised m₁ =>
      simp only [htraced, run_bind, run_modifyGet, run_throw, EStateM.Result.error.injEq] at h
      exact ⟨_, h.1.symm⟩

theorem settle_error {below : Nat} {outcome : Except ScriptError Unit}
    (h : settle below outcome host m = .error e m') : outcome = .error e := by
  cases outcome with
  | ok u => cases h
  | error raised =>
      cases h
      rfl

/-- So do guarded calls with marshaled arguments, whatever stage fails. -/
theorem callMarshaled_guarded
    (h : callMarshaled count wanted ds args .guarded host m = .error e m') :
    ∃ message, e = .runtime message := by
  by_cases hcount : count + 1 ≤ m.top
  · cases hread : Reading.format (m.top - count) ds args host m with
    | error e _ => exact e.elim
    | ok problem m₁ =>
        cases problem with
        | some e =>
            obtain ⟨height, hcut⟩ := callMarshaled_problem wanted .guarded hcount hread
            rw [hcut] at h
            cases h
            exact ⟨_, rfl⟩
        | none =>
            rw [callMarshaled_eq wanted .guarded hcount hread] at h
            simp only [callFormatted, run_bind, run_get, run_attempt] at h
            cases hcall : callProtected .guarded (count + (m₁.top - m.top)) wanted host m₁ with
            | ok u m₂ =>
                rw [hcall] at h
                cases h
            | error raised m₂ =>
                rw [hcall] at h
                cases settle_error h
                exact callProtected_guarded hcall
  · rw [callMarshaled, run_bind, run_get] at h
    dsimp only at h
    rw [if_pos (by omega)] at h
    cases h
    exact ⟨_, rfl⟩

end Act

namespace Machine

open Act

variable {host : Host} {m : Machine} {count : Nat}

theorem functionBelow?_of_le (hcount : count + 1 ≤ m.top) :
    m.functionBelow? count = some (m.base + (m.top - (count + 1))) := if_pos hcount

/-- What a marshaled call does with a function and `count` values on the stack. As long as nothing
    closes the machine it replaces them by the results, as many as wanted unless that is negative, or
    takes them off when it fails; what lies below is as it was. If the format cannot be read, as
    happens at the latest at its first structural error, nothing is called: the stack is cut and the
    error tells the first problem. A guarded call fails with messages only. -/
theorem Reachable.callMarshaled_contract (hm : m.Reachable) (hhost : host.Lawful)
    (hcount : count + 1 ≤ m.top) (wanted : Int) (ds : List Directive) (args : List Argument)
    (protection : Protection) :
    (∀ n m', callMarshaled count wanted ds args protection host m = .ok n m' →
      m'.closed = m.closed →
      m'.top = m.top - (count + 1) + n ∧ (0 ≤ wanted → (n : Int) = wanted) ∧
        m.stack.toList.take (m.stack.size - (count + 1)) <+: m'.stack.toList) ∧
    (∀ e m', callMarshaled count wanted ds args protection host m = .error e m' →
      m'.closed = m.closed →
      m'.top = m.top - (count + 1) ∧
        m'.stack.toList = m.stack.toList.take (m.stack.size - (count + 1))) ∧
    (∀ problem m', Reading.format (m.top - count) ds args host m = .ok (some problem) m' →
      ∃ height, callMarshaled count wanted ds args protection host m =
        .error (.runtime problem.message) (m'.setTop height)) ∧
    (∀ flaw, Format.flaw ds = some flaw → ∃ problem m',
      Reading.format (m.top - count) ds args host m = .ok (some problem) m' ∧
        (problem = flaw ∨ problem.ofArgument = true)) ∧
    (protection = .guarded →
      ∀ e m', callMarshaled count wanted ds args protection host m = .error e m' →
        ∃ message, e = .runtime message) := by
  obtain ⟨v, given, hl, hgiven, hbase, hlength⟩ :=
    laid_of_functionBelow (functionBelow?_of_le hcount)
  -- Heights count from the base of the frame, positions from the bottom of the stack.
  have hposition : m.base + (m.top - (count + 1)) = m.stack.size - (count + 1) := by
    have := hm.framed
    unfold Framed top at *
    omega
  rw [hposition] at hl hbase hlength
  have htop : m.top = m.stack.size - m.base := rfl
  have hspec : Spec _ (callMarshaled given.length wanted ds args protection) _ _ :=
    callMarshaled_spec (v := v) ds args protection (hlength.symm ▸ hbase)
  rw [hgiven] at hspec
  refine ⟨fun n m' hrun hclosed => ?_, fun e m' hrun hclosed => ?_, fun problem m' => ?_,
    fun flaw hflaw => Reading.format_flaw hflaw args host m, fun hguarded e m' hrun => ?_⟩
  · obtain ⟨results, hl', hn, hwanted⟩ := hspec.ok hhost hm.framed hl hrun hclosed
    refine ⟨?_, hwanted, hl'.over.stack⟩
    rw [hl'.top, List.length_append, hlength]
    omega
  · have hl' := hspec.error hhost hm.framed hl hrun hclosed
    refine ⟨?_, hl'.stack⟩
    rw [hl'.top, hlength]
    omega
  · exact callMarshaled_problem wanted protection hcount
  · subst hguarded
    exact callMarshaled_guarded hrun

/-- Without directives nothing is read. -/
theorem format_nil (start : Nat) (args : List Argument) :
    Reading.format start [] args host m = .ok none m := by
  rw [Reading.format, Format.elements]
  rfl

/-- A call of a function that gives back one result, where two are wanted. -/
theorem echoing_callMarshaled_contract : ∃ m',
    callMarshaled 1 2 [] [] .unguarded (Programs.host [] 1) echoing = .ok 2 m' ∧ m'.top = 3 ∧
      [.int 7] <+: m'.stack.toList := by
  have hhost : (Programs.host [] 1).Lawful := Programs.host_lawful 1
  have hcount : 1 + 1 ≤ echoing.top := by decide
  have hread : Reading.format (echoing.top - 1) [] [] (Programs.host [] 1) echoing = .ok none echoing :=
    format_nil _ _
  have hrun := callMarshaled_eq 2 .unguarded hcount hread
  obtain ⟨hdone, -⟩ := echoing_reachable.callMarshaled_contract hhost hcount 2 [] [] .unguarded
  refine ⟨_, hrun.trans rfl, ?_⟩
  obtain ⟨htop, -, hkept⟩ := hdone _ _ (hrun.trans rfl) rfl
  exact ⟨htop, hkept⟩

/-- A host with a function that closes the machine and fails. -/
def closingHost : Host :=
  Programs.host [("f", [.basic (.machine .close), .basic (.raise (.error (.runtime "no")))])] 1

/-- Above a number, such a function. -/
def closing : Machine := ((withFunction (.program "f")).push (.int 1)).push (.function 0)

theorem closing_reachable : closing.Reachable := ((withFunction_reachable _).push _).push _

/-- A number, and then a directive that there is not. -/
def mistyped : List Directive := [.integer, .unknown '?']

theorem elements_mistyped : Format.elements mistyped = [.scalar .integer, .bad .badType] := by
  simp [mistyped, Format.elements, Format.element]

/-- Without an argument for the number, reading does not come to the directive after it. -/
theorem format_mistyped (start : Nat) :
    Reading.format start mistyped [] host m = .ok (some .missingArgument) m := by
  rw [Reading.format, elements_mistyped, Reading.all, Reading.element]
  rfl

/-- A callee that closes the machine drops the values below it: the number is gone, and the place that
    it had is filled up with nil. And a call whose format has a structural error may fail with the
    error of an argument before it. -/
theorem closing_callMarshaled : closing.Reachable ∧ closingHost.Lawful ∧ 0 + 1 ≤ closing.top ∧
    (∃ m', callMarshaled 0 0 [] [] .unguarded closingHost closing = .error (.runtime "no") m' ∧
      m'.stack.toList = [.nil] ∧
      m'.stack.toList ≠ closing.stack.toList.take (closing.stack.size - (0 + 1))) ∧
    ∃ flaw e m', Format.flaw mistyped = some flaw ∧
      callMarshaled 0 0 mistyped [] .unguarded closingHost closing = .error e m' ∧
      e ≠ .runtime flaw.message := by
  have hcount : 0 + 1 ≤ closing.top := by decide
  have hread : Reading.format (closing.top - 0) [] [] closingHost closing = .ok none closing :=
    format_nil _ _
  have hrun := callMarshaled_eq 0 .unguarded hcount hread
  have hflaw : Format.flaw mistyped = some .badType := by
    rw [Format.flaw, elements_mistyped]
    rfl
  have hunread : Reading.format (closing.top - 0) mistyped [] closingHost closing =
      .ok (some .missingArgument) closing := format_mistyped _
  obtain ⟨height, hmissing⟩ := callMarshaled_problem 0 .unguarded hcount hunread
  refine ⟨closing_reachable, Programs.host_lawful 1, hcount, ⟨_, hrun.trans rfl, rfl, by decide⟩, ?_⟩
  exact ⟨_, _, _, hflaw, hmissing, by decide⟩

end Machine

end ScriptHost
