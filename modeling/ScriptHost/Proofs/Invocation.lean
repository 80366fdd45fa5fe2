import ScriptHost.Proofs.Lawful.Program
import ScriptHost.Proofs.Spec.Marshal

/-! # Entry points

An entry point leaves what lay below its callee, with the results of the call above it if the call
succeeded. The one exception is a method that cannot be looked up: then a value is left behind.
-/

namespace ScriptHost.Act

open Machine

variable {host : Host} {m m' : Machine} {b : Nat} {s below given : List Value} {v : Value}
  {wanted : Int}

/-! ## Calls with a traceback -/

/-- When a call with a traceback fails the error value takes the place of the function. -/
theorem tracedCall_spec (hb : b ≤ below.length) :
    Spec (Laid b (below ++ v :: given)) (tracedCall given.length wanted)
      (fun _ => Returned b below wanted) (fun m => ∃ e, Laid b (below ++ [e]) m) := by
  have hremove : ∀ {n : Nat} {h : Value} {t : List Value} {E : Machine → Prop}, b + n = below.length + 1 →
      Spec (Laid b (below ++ h :: t)) (liftM (Op.remove (.fromBottom n)) : Act ScriptError Unit)
        (fun _ => Laid b (below ++ t)) E :=
    fun hn => remove_spec fun _ hl => hl.position_fromBottom hb hn
  refine .bind (cachedNative_spec .traceback _ _) fun _ => .exists_pre fun h => .get_bind
    (.bind .get fun _ => .bind (.lift (Op.insert_lawful _)) fun _ =>
      .bind (.attempt (protectedCall_lawful _ _ _)) fun outcome =>
        .bind (.lift (Op.remove_lawful _)) fun _ => .ofExcept outcome) fun m _ hm => ?_
  have hn : b + m.functionNumber given.length = below.length + 1 := by
    have htop := hm.top
    simp only [List.length_append, List.length_cons, List.length_nil] at htop
    rw [functionNumber, if_pos (by omega)]
    omega
  refine .bind (.pre (insert_spec (s := below) (t := v :: given) (v := h) fun _ hl => ?_)
    fun _ hl => hl ▸ hm) fun _ => ?_
  · rw [List.append_assoc] at hl
    exact hl.position_fromBottom hb hn
  rw [List.append_cons]
  refine .bind (.attempt (protectedCall_spec (by rw [List.length_append]; omega))) fun outcome => ?_
  cases outcome with
  | ok _ =>
      refine .exists_pre fun results => ?_
      rw [List.append_assoc]
      exact .bind ((hremove hn).and_const _) fun _ => .pure fun _ hl => ⟨results, hl⟩
  | error e =>
      refine .exists_pre fun value => ?_
      rw [List.append_assoc]
      exact .bind (hremove hn) fun _ => .throw fun _ hl => ⟨value, hl⟩

/-! ## Marshaled calls -/

/-- A number on top that is read as a message gives way to its text. -/
theorem stringAt_over {e : Value} (hl : Laid b (below ++ [e]) m) (hb : b ≤ below.length) :
    Over b below (m.stringAt .top).2 := by
  unfold stringAt
  split
  · exact hl.over
  · split
    · exact hl.over
    · rename_i text _
      have hinterned : Laid b (below ++ [e]) (m.intern (Utf8.encode text)).2 := hl.of_eq rfl rfl
      have htop : (m.intern (Utf8.encode text)).2.position? .top = some below.length :=
        hinterned.position_fromTop hb rfl
      dsimp only
      rw [htop]
      refine ⟨hinterned.base, ?_⟩
      simp only [putAt, Array.toList_setIfInBounds, hinterned.stack]
      rw [List.set_append_right _ _ (Nat.le_refl _)]
      exact List.prefix_append _ _

theorem errorMessage_over {e : Value} (hl : Laid b (below ++ [e]) m) (hb : b ≤ below.length) :
    Over b below m.errorMessage.2 := by
  unfold errorMessage
  split
  · exact stringAt_over hl hb
  · exact hl.over

theorem callProtected_spec (protection : Protection) (hb : b ≤ below.length) :
    Spec (Laid b (below ++ v :: given)) (callProtected protection given.length wanted)
      (fun _ => Returned b below wanted) (Over b below) := by
  cases protection with
  | unguarded => exact call_spec hb
  | guarded =>
      refine .bind (.attempt (tracedCall_spec hb)) fun outcome => ?_
      cases outcome with
      | ok _ => exact .pure fun _ => id
      | error _ =>
          refine .exists_pre fun e => ?_
          exact .bind (Q := fun _ => Over b below) (.modifyGet (fun _ => leads_errorMessage)
            fun _ _ hl => errorMessage_over hl hb) fun _ => .throw fun _ => id

/-- The number of results of a call that was done. -/
def Answered (b : Nat) (below : List Value) (wanted : Int) (n : Nat) (m : Machine) : Prop :=
  ∃ results, Laid b (below ++ results) m ∧ results.length = n ∧ (0 ≤ wanted → (n : Int) = wanted)

theorem settle_ok_spec {n : Nat} (hn : b + n = below.length) :
    Spec (Returned b below wanted) (settle n (.ok ())) (Answered b below wanted) (Laid b below) :=
  .get_bind (settle_lawful n (.ok ())) fun m _ ⟨results, hl, hlength⟩ => .pure fun _ hm => by
    have hsame : m.top - n = results.length := by
      rw [hl.top, List.length_append]
      omega
    exact ⟨results, hm ▸ hl, hsame.symm, fun hwanted => hsame ▸ hlength hwanted⟩

theorem settle_error_spec {n : Nat} {e : ScriptError} {Q : Nat → Machine → Prop}
    (hn : b + n = below.length) :
    Spec (Over b below) (settle n (.error e)) Q (Laid b below) :=
  .bind (Q := fun _ => Laid b below) (.modify (fun _ => leads_setTop) fun _ _ h => h.setTop hn)
    fun _ => .throw fun _ => id

theorem settle_spec {n : Nat} {outcome : Except ScriptError Unit} (hn : b + n = below.length) :
    Spec (Tried (fun _ => Returned b below wanted) (Over b below) outcome) (settle n outcome)
      (Answered b below wanted) (Laid b below) := by
  cases outcome with
  | ok _ => exact settle_ok_spec hn
  | error _ => exact settle_error_spec hn

/-- A marshaled call leaves what lay below the function, and above it the results if it succeeds. -/
theorem callMarshaled_spec (ds : List Directive) (args : List Argument) (protection : Protection)
    (hb : b ≤ below.length) :
    Spec (Laid b (below ++ v :: given)) (callMarshaled given.length wanted ds args protection)
      (Answered b below wanted) (Laid b below) := by
  refine .get_bind (callMarshaled_lawful _ _ _ _ _) fun m _ hm => ?_
  have htop := hm.top
  simp only [List.length_append, List.length_cons] at htop
  rw [if_neg (by omega)]
  have hformat : Spec (· = m) (Reading.format (m.top - given.length) ds args)
      (fun problem m => (problem = none → ∃ t, Laid b (below ++ v :: given ++ t) m) ∧
        Over b (below ++ v :: given) m) (fun _ => False) :=
    (Reading.format_spec _ ds args _ (by rw [List.length_append]; omega) _).pre fun _ h => h ▸ hm
  refine .bind (Spec.post hformat.mapError (fun _ _ => id) nofun) fun problem => ?_
  refine .get_bind (callFormatted_lawful _ _ _ _ _) fun m' _ ⟨hread, hover⟩ => ?_
  have hn : b + (m'.top - (given.length + (m'.top - m.top)) - 1) = below.length := by
    have hsize := hover.size_le
    have htop' : m'.top = m'.stack.size - b := by rw [Machine.top, hover.base]
    simp only [List.length_append, List.length_cons] at hsize
    omega
  cases problem with
  | some e =>
      exact (settle_error_spec hn).pre fun _ h => h ▸ hover.below
  | none =>
      obtain ⟨t, hl⟩ := hread rfl
      have hcount : given.length + (m'.top - m.top) = (given ++ t).length := by
        have htop' := hl.top
        simp only [List.length_append, List.length_cons] at htop' ⊢
        omega
      rw [hcount] at hn ⊢
      rw [List.append_assoc, List.cons_append] at hl
      exact .bind (.attempt ((callProtected_spec protection hb).pre fun _ h => h ▸ hl)) fun _ =>
        settle_spec hn

/-! ## Callees -/

/-- The values of the stack below a callee. -/
def Callee.stackBelow (m : Machine) : Callee → List Value
  | .onTop => if m.top = 0 then m.stack.toList else m.stack.toList.dropLast
  | .global _ | .method _ _ | .methodAt _ _ => m.stack.toList

theorem Callee.stackBelow_of_ne {callee : Callee} (m : Machine) (hcallee : callee ≠ .onTop) :
    callee.stackBelow m = m.stack.toList := by
  cases callee with
  | onTop => cases hcallee rfl
  | global _ | method _ _ | methodAt _ _ => rfl

/-- The method of a callee cannot be looked up in the object that has to have it. -/
def Callee.Missing (host : Host) (m : Machine) : Callee → Prop
  | .onTop | .global _ => False
  | .method source name => ∃ v found e failed, getGlobal source host m = .ok v found ∧
      getField .top name host found = .error e failed
  | .methodAt source name => ∃ e failed, getField (m.absolute source) name host m = .error e failed

/-- A function with so many arguments lies above some values. -/
def Ready (b : Nat) (s : List Value) (count : Nat) (m : Machine) : Prop :=
  ∃ v given, Laid b (s ++ v :: given) m ∧ given.length = count

theorem ready_of_pushed (h : Pushed b s m) : Ready b s 0 m := by
  obtain ⟨v, hl⟩ := h
  exact ⟨v, [], hl, rfl⟩

theorem callMarshaled_ready {n : Nat} (ds : List Directive) (args : List Argument)
    (protection : Protection) (hb : b ≤ below.length) :
    Spec (Ready b below n) (callMarshaled n wanted ds args protection) (Answered b below wanted)
      (Laid b below) :=
  .exists_pre fun v => .of_cases (callMarshaled_lawful _ _ _ _ _) fun hhost hm ⟨given, hl, hn⟩ hc => by
    subst hn
    exact (callMarshaled_spec ds args protection hb).ended hhost hm hl hc

/-- A method is put below its object. -/
theorem pushMethod_ready {name : String} (hhost : host.Lawful) (hm : m.Framed)
    (hl : Laid b (s ++ [v]) m) (hb : b ≤ s.length)
    (hfound : ∀ e failed, getField .top name host m ≠ .error e failed)
    (hclosed : (Op.after (pushMethod name host) m).closed = m.closed) :
    Ended (fun _ => Ready b s 1) (Laid b s) (pushMethod name host m) := by
  have hget := (getField_spec .top name (s ++ [v])).ended hhost hm hl
  refine .bind (Q := fun r m' => r.isOk = true ∧ Pushed b (s ++ [v]) m') (.attempt (getField_lawful _ _))
    (fun r => ?_) hhost hm hclosed (fun hc => ?_) fun r m' hm' ⟨hok, w, hl'⟩ hc => ?_
  · cases r with
    | ok _ => exact .lift (Op.insert_lawful _)
    | error _ => exact .bind (.modify fun _ => leads_pop) fun _ => .throw _
  · rw [after_attempt] at hc
    rw [run_attempt]
    cases h : getField .top name host m with
    | error e failed => exact absurd h (hfound e failed)
    | ok kind m' =>
        rw [h] at hget
        exact ⟨rfl, hget hc⟩
  · cases r with
    | error _ => cases hok
    | ok _ =>
        rw [List.append_assoc] at hl'
        have hinsert : Spec (Laid b (s ++ [v] ++ [w]))
            (liftM (Op.insert (.fromTop 2)) : Act ScriptError Unit) (fun _ => Laid b (s ++ w :: [v]))
            (Laid b s) :=
          insert_spec fun m hl => by
            rw [List.append_assoc] at hl
            exact hl.position_fromTop hb rfl
        rw [← List.append_assoc] at hl'
        exact (hinsert.ended hhost hm' hl' hc).imp (fun _ _ hl => ⟨w, [v], hl, rfl⟩) fun _ => id

/-- A callee that can be looked up is pushed, or what was pushed for it is gone again. -/
theorem pushCallee_ready {callee : Callee} (hhost : host.Lawful) (hm : m.Framed) (hl : Laid b s m)
    (hcallee : callee ≠ .onTop) (hfound : ¬ callee.Missing host m)
    (hclosed : (Op.after (pushCallee callee host) m).closed = m.closed) :
    Ended (Ready b s) (Laid b s) (pushCallee callee host m) := by
  have hb := hl.base_le hm
  cases callee with
  | onTop => cases hcallee rfl
  | global name =>
      refine .bind (getGlobal_lawful _) (fun _ => .pure _) hhost hm hclosed
        ((getGlobal_spec name s).ended hhost hm hl) fun _ m' _ hpushed _ => ?_
      exact ready_of_pushed hpushed
  | method source name =>
      have hget := (getGlobal_spec source s).ended hhost hm hl
      refine .bind (getGlobal_lawful _) (fun _ => .bind (pushMethod_lawful _) fun _ => .pure _) hhost hm
        hclosed (fun hc => (hget hc).self.imp (fun _ _ => id) fun _ h => h.1)
        fun _ found hm' ⟨⟨v, hl'⟩, hrun⟩ hc => ?_
      refine .bind (pushMethod_lawful _) (fun _ => .pure _) hhost hm' hc
        (pushMethod_ready hhost hm' hl' hb fun e failed h => ?_) fun _ _ _ hready _ => hready
      exact hfound ⟨_, found, e, failed, hrun, h⟩
  | methodAt source name =>
      have hget := (getField_spec (m.absolute source) name s).ended hhost hm hl
      refine .bind (Q := fun r m' => m = r ∧ m = m') .get (fun m' => .bind (getField_lawful _ _) fun _ =>
        .bind (.modify fun _ => leads_pushAt) fun _ => .pure _) hhost hm hclosed
        (fun _ => ⟨rfl, rfl⟩) fun r m' _ ⟨hr, hm'⟩ hc => ?_
      subst hr hm'
      refine .bind (Q := fun _ => Pushed b s) (getField_lawful _ _)
        (fun _ => .bind (.modify fun _ => leads_pushAt) fun _ => .pure _) hhost hm hc (fun hc => ?_)
        fun _ m' _ ⟨w, hl'⟩ _ => ?_
      · cases h : getField (m.absolute source) name host m with
        | error e failed => exact absurd ⟨e, failed, h⟩ hfound
        | ok _ _ =>
            rw [h] at hget
            exact hget hc
      · have hpushed := hl'.push (v := m'.value (m.absolute source))
        rw [List.append_assoc] at hpushed
        exact ⟨w, _, hpushed, rfl⟩

/-- A method that cannot be looked up leaves something behind. -/
theorem pushCallee_missing {callee : Callee} (hhost : host.Lawful) (hm : m.Framed) (hl : Laid b s m)
    (hmissing : callee.Missing host m)
    (hclosed : (Op.after (pushCallee callee host) m).closed = m.closed) :
    Ended (fun _ _ => False) (fun m' => ∃ v, Over b (s ++ [v]) m') (pushCallee callee host m) := by
  cases callee with
  | onTop | global name => cases hmissing
  | method source name =>
      obtain ⟨u, found, e, failed, hglobal, hfield⟩ := hmissing
      have hrun : pushCallee (.method source name) host m = .error e (failed.pop 1) := by
        rw [pushCallee, run_bind, hglobal]
        simp only [pushMethod, run_bind, run_attempt, hfield, run_modify, run_throw]
      rw [Op.after_error hrun] at hclosed
      rw [hrun]
      have hruns := (getGlobal_lawful source).run_ok hhost hm hglobal
      have hfails := (getField_lawful .top name).run_error hhost (hruns.framed hm) hfield
      obtain ⟨hc, hc'⟩ := hruns.closed_between hfails hm hclosed
      obtain ⟨v, hl'⟩ := (getGlobal_spec source s).ok hhost hm hl hglobal hc
      obtain ⟨key, hover⟩ := (getField_spec .top name (s ++ [v])).error hhost (hruns.framed hm) hl' hfield
        hc'
      exact ⟨v, hover.pop⟩
  | methodAt source name =>
      obtain ⟨e, failed, hfield⟩ := hmissing
      have hrun : pushCallee (.methodAt source name) host m = .error e failed := by
        rw [pushCallee, run_bind, run_get]
        dsimp only
        rw [run_bind, hfield]
      rw [Op.after_error hrun] at hclosed
      rw [hrun]
      exact (getField_spec _ name s).error hhost hm hl hfield hclosed

/-! ## Entry points -/

/-- An entry point whose callee can be looked up. -/
theorem invocation_laid (callee : Callee) (wanted : Int) (ds : List Directive) (args : List Argument)
    (protection : Protection) (hhost : host.Lawful) (hm : m.Framed)
    (hfound : ¬ callee.Missing host { m with callSite := true })
    (hclosed : (Op.after (invocation callee wanted ds args protection host) m).closed = m.closed) :
    Ended (Answered m.base (callee.stackBelow m) wanted) (Laid m.base (callee.stackBelow m))
      (invocation callee wanted ds args protection host m) := by
  have hcall : ∀ n, (callMarshaled n wanted ds args protection).Lawful :=
    fun n => callMarshaled_lawful n wanted ds args protection
  by_cases hcallee : callee = .onTop
  · subst hcallee
    change Ended _ _ (callMarshaled 0 wanted ds args protection host { m with callSite := true })
    by_cases htop : m.top = 0
    · have hbelow : Callee.onTop.stackBelow m = m.stack.toList := if_pos htop
      have hrun : callMarshaled 0 wanted ds args protection host { m with callSite := true } =
          .error (.ofFault .noFunctionBelow) { m with callSite := true } := by
        rw [callMarshaled, run_bind, run_get]
        change (if m.top < 0 + 1 then _ else _ : Act ScriptError Nat) host _ = _
        rw [if_pos (by omega)]
        rfl
      rw [hbelow, hrun]
      exact ⟨rfl, rfl⟩
    · have hbelow : Callee.onTop.stackBelow m = m.stack.toList.dropLast := if_neg htop
      have hsize : m.base + m.top = m.stack.toList.length := by
        rw [Array.length_toList, Machine.top, Nat.add_sub_cancel' hm]
      have hne : m.stack.toList ≠ [] := by
        intro h
        rw [h] at hsize
        exact htop (Nat.eq_zero_of_add_eq_zero_left hsize)
      have hready : Ready m.base m.stack.toList.dropLast 0 { m with callSite := true } :=
        ⟨_, [], ⟨rfl, (List.dropLast_append_getLast hne).symm⟩, rfl⟩
      rw [hbelow]
      refine (callMarshaled_ready ds args protection ?_).ended hhost hm hready hclosed
      rw [List.length_dropLast]
      omega
  · have hbelow := Callee.stackBelow_of_ne m hcallee
    rw [hbelow]
    have hl : Laid m.base m.stack.toList { m with callSite := true } := ⟨rfl, rfl⟩
    refine Ended.bind (m := { m with callSite := true }) (pushCallee_lawful callee) hcall hhost hm hclosed
      (pushCallee_ready hhost hm hl hcallee hfound) fun n m' hm' hready hc => ?_
    exact (callMarshaled_ready ds args protection (hl.base_le hm)).ended hhost hm' hready hc

/-- An entry point whose method cannot be looked up. -/
theorem invocation_missing (callee : Callee) (wanted : Int) (ds : List Directive)
    (args : List Argument) (protection : Protection) (hhost : host.Lawful) (hm : m.Framed)
    (hmissing : callee.Missing host { m with callSite := true })
    (hclosed : (Op.after (invocation callee wanted ds args protection host) m).closed = m.closed) :
    Ended (fun _ _ => False) (fun m' => ∃ v, Over m.base (callee.stackBelow m ++ [v]) m')
      (invocation callee wanted ds args protection host m) := by
  have hcallee : callee ≠ .onTop := by
    rintro rfl
    exact hmissing
  rw [Callee.stackBelow_of_ne m hcallee]
  have hl : Laid m.base m.stack.toList { m with callSite := true } := ⟨rfl, rfl⟩
  exact .bind (m := { m with callSite := true }) (pushCallee_lawful callee)
    (fun n => callMarshaled_lawful n wanted ds args protection) hhost hm hclosed
    (pushCallee_missing hhost hm hl hmissing) nofun

end ScriptHost.Act

namespace ScriptHost.Machine

open Act

variable {host : Host} {m : Machine}

/-- What an entry point leaves on the stack. A call that is done leaves its results above what lay
    below the callee. A failure leaves just what lay below the callee, unless the method could not be
    looked up: then there is more. A run that closes the machine drops the whole stack. -/
theorem Reachable.invocation_stack (hm : m.Reachable) (hhost : host.Lawful) (callee : Callee)
    (wanted : Int) (ds : List Directive) (args : List Argument) (protection : Protection) :
    (∀ n m', invocation callee wanted ds args protection host m = .ok n m' →
      m'.closed = m.closed →
      ∃ results, m'.stack.toList = callee.stackBelow m ++ results ∧ results.length = n ∧
        (0 ≤ wanted → (n : Int) = wanted)) ∧
    (∀ e m', invocation callee wanted ds args protection host m = .error e m' →
      m'.closed = m.closed →
      callee.stackBelow m <+: m'.stack.toList ∧
        (m'.stack.toList = callee.stackBelow m ↔
          ¬ callee.Missing host { m with callSite := true })) := by
  have hlaid := invocation_laid callee wanted ds args protection hhost hm.framed
  have hmissing := invocation_missing callee wanted ds args protection hhost hm.framed
  refine ⟨fun n m' hrun hclosed => ?_, fun e m' hrun hclosed => ?_⟩
  · rw [Op.after_ok hrun, hrun] at hlaid hmissing
    have hfound : ¬ callee.Missing host { m with callSite := true } := fun h => hmissing h hclosed
    obtain ⟨results, hl, hlength, hwanted⟩ := hlaid hfound hclosed
    exact ⟨results, hl.stack, hlength, hwanted⟩
  · rw [Op.after_error hrun, hrun] at hlaid hmissing
    by_cases hfound : callee.Missing host { m with callSite := true }
    · obtain ⟨v, hover⟩ := hmissing hfound hclosed
      refine ⟨hover.below.stack, fun heq => ?_, fun h => absurd hfound h⟩
      have hlength := hover.stack.length_le
      rw [heq, List.length_append, List.length_singleton] at hlength
      omega
    · have hl := hlaid hfound hclosed
      exact ⟨hl.stack ▸ List.prefix_rfl, fun _ => hfound, fun _ => hl.stack⟩

/-- A number on the stack. -/
def numbered : Machine := (create {}).push (.int 1)

/-- A number has no methods: the name stays on the stack. -/
theorem numbered_invocation_stack : ∃ e m',
    invocation (.methodAt (.fromBottom 1) "f") 0 [] [] .unguarded (Programs.host [] 0) numbered =
      .error e m' ∧ m'.closed = numbered.closed ∧
    numbered.stack.toList <+: m'.stack.toList ∧ m'.stack.toList ≠ numbered.stack.toList := by
  have hreachable : numbered.Reachable :=
    (reachable_create {}).runs (leads_push (Nat.zero_le _))
  have hmissing : (Callee.methodAt (.fromBottom 1) "f").Missing (Programs.host [] 0)
      { numbered with callSite := true } := ⟨_, _, rfl⟩
  have hhost : (Programs.host [] 0).Lawful := Programs.host_lawful 0
  obtain ⟨-, hfails⟩ := hreachable.invocation_stack hhost (.methodAt (.fromBottom 1) "f") 0 [] []
    .unguarded
  refine ⟨_, _, rfl, rfl, ?_⟩
  obtain ⟨hkept, hexact⟩ := hfails _ _ rfl rfl
  exact ⟨hkept, fun h => hexact.mp h hmissing⟩

end ScriptHost.Machine
