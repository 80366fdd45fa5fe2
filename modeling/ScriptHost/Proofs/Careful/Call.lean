import ScriptHost.Proofs.Careful.Table

/-! # Calls

Calling functions, in protected mode or not, is careful. An error value is passed to the message handler
while it is there, and leaves a protected call as what the handler made of it.
-/

namespace ScriptHost

open Raises (raised?)

namespace Machine

variable {m : Machine} {e : ScriptError} {v raised : Value} {answer : Option Value}

/-- The value of an error is the one that it raises, or a text. -/
theorem errorValue_cases (m : Machine) (e : ScriptError) :
    (∃ v, e = .value v ∧ m.errorValue e = (v, m)) ∨
      raised? e = none ∧ ∃ id strings, m.errorValue e = (.string id, { m with strings }) := by
  cases e with
  | value v => exact .inl ⟨v, rfl, rfl⟩
  | runtime | stackOverflow | errorInHandler => exact .inr ⟨rfl, _, _, rfl⟩

theorem Intact.errorValue (hm : m.Intact) (e : ScriptError) : (m.errorValue e).2.Intact := { hm with }

theorem Intact.returnResults (hm : m.Intact) (position : Nat) (wanted : Int) (count : Nat) :
    (m.returnResults position wanted count).Intact := by
  have hleft : m.forgetDecoration.leaveFrame.Intact := { hm.forgetDecoration with }
  unfold Machine.returnResults
  dsimp only
  split
  · exact hleft.moveDown _ _
  · exact (hleft.moveDown _ _).resize _

theorem returnResults_events (m : Machine) (position : Nat) (wanted : Int) (count : Nat) :
    (m.returnResults position wanted count).events = m.events := by
  have hforget : m.forgetDecoration.events = m.events := by rw [forgetDecoration_eq]
  unfold Machine.returnResults
  dsimp only
  split
  · exact hforget
  · obtain ⟨stack, hstack⟩ := Machine.resize_eq (m.forgetDecoration.leaveFrame.moveDown position _) _
    exact (congrArg Machine.events hstack).trans hforget

theorem Intact.beginHandling {handler : Value} (hm : m.Intact) (hhandler : m.heap.Present handler)
    (hraised : m.heap.Present raised) : (m.beginHandling handler raised).Intact := by
  have hpushed := ((hm.push hhandler).push hraised).modifyGuard
    (f := fun g => { g with running := true }) fun g hg => { hg with }
  rw [modifyGuard_eq] at hpushed
  rw [beginHandling_eq]
  exact { hpushed with }

/-- What a handler made of an error takes its place in the protected call. -/
theorem Intact.endHandling (hm : m.Intact) (position : Nat)
    (hanswer : ∀ v, answer = some v → m.heap.Present v) :
    (m.endHandling position raised answer).Intact := by
  have houtcome : (m.handlerOutcome answer).2.Intact ∧
      (m.handlerOutcome answer).2.heap.Present (m.handlerOutcome answer).1 := by
    cases answer with
    | some v => exact ⟨hm, hanswer v rfl⟩
    | none => exact ⟨hm.errorValue _, Heap.present_of_ref? rfl⟩
  obtain ⟨hleft, hpresent⟩ := houtcome
  have hended := (hleft.truncate position).modifyGuard (f := fun g => { g with
    running := false, decoration := some { raised, outcome := (m.handlerOutcome answer).1 } })
    fun g hg => ⟨hg.handler, fun d hd => by
      cases hd
      exact hpresent⟩
  exact { hended with }

/-- A handler that still has its protected call leaves its outcome there. -/
theorem covered_endHandling {position : Nat}
    (h : ¬ Event.Orphaned (m.endHandling position raised answer).events) :
    (m.endHandling position raised answer).Covered raised := by
  rw [endHandling_events] at h
  have hguards : m.guards ≠ [] := by
    intro hnil
    exact h ⟨raised, answer, by simp [hnil]⟩
  obtain ⟨g, rest, hg⟩ := List.exists_cons_of_ne_nil hguards
  rw [endHandling_eq]
  exact ⟨_, _, by rw [hg]; rfl, rfl, rfl⟩

theorem raised_of_ofValue {strings : StringPool}
    (h : raised? (ScriptError.ofValue v strings) = some raised) : raised = v := by
  cases v with
  | string => cases h
  | nil | bool | float | int | light | object | foreign =>
      cases h
      rfl

/-- The error that a protected call fails with is there: if the raised value is not, then what the
    handler made of it takes its place. -/
theorem Intact.failProtected (hm : m.Intact) (he : Carried e m) (depth position : Nat) :
    (m.failProtected depth position e).2.Intact ∧
      Carried (m.failProtected depth position e).1 (m.failProtected depth position e).2 := by
  -- The rest is the same whatever the final error is, as long as its value is there.
  have hfinal : ∀ (m' : Machine) (final : ScriptError), m'.Intact →
      (∀ v, raised? final = some v → m'.heap.Present v) →
      (((m'.errorValue final).2.truncate position).push (m'.errorValue final).1).Intact ∧
        Carried final (((m'.errorValue final).2.truncate position).push (m'.errorValue final).1) := by
    intro m' final hm' hpresent
    rcases m'.errorValue_cases final with ⟨v, rfl, heq⟩ | ⟨htext, id, strings, heq⟩ <;> rw [heq]
    · exact ⟨(hm'.truncate position).push (hpresent v rfl), carried_of_present hpresent⟩
    · have hinterned : { m' with strings }.Intact := { hm' with }
      exact ⟨(hinterned.truncate position).push (Heap.present_of_ref? rfl), carried_of_text htext⟩
  have hleft : (m.popGuard.truncateFrames depth).Intact := { hm.popGuard with }
  unfold Machine.failProtected
  dsimp only
  refine hfinal _ _ (hleft.errorValue e) fun v hv => ?_
  change m.heap.Present v
  cases hguards : m.guards with
  | nil =>
      rw [hguards] at hv
      rcases he v hv with hpresent | ⟨g, d, hg, -⟩
      · exact hpresent
      · simp [hguards] at hg
  | cons g rest =>
      rw [hguards] at hv
      dsimp only at hv
      cases hd : g.decoration with
      | none =>
          rw [hd] at hv
          rcases he v hv with hpresent | ⟨g', d, hg', hd', -⟩
          · exact hpresent
          · obtain rfl : g = g' := by simpa [hguards] using hg'
            rw [hd] at hd'
            cases hd'
      | some d =>
          rw [hd] at hv
          dsimp only at hv
          split at hv
          · rw [raised_of_ofValue hv]
            exact (hm.guards g (hguards ▸ List.mem_cons_self)).outcome d hd
          · rename_i hother
            obtain rfl := ScriptError.eq_value hv
            rcases he v rfl with hpresent | ⟨g', d', hg', hd', hraised⟩
            · exact hpresent
            · obtain rfl : g = g' := by simpa [hguards] using hg'
              rw [hd] at hd'
              cases hd'
              exact absurd (beq_iff_eq.mpr hraised) hother

end Machine

open Machine (Carried Covered)

namespace Act

variable {ε : Type} {E : ε → Machine → Prop} {position : Nat} {wanted : Int}

theorem callee_clean (position : Nat) : (callee position).Clean := by
  refine .get_bind fun m => ?_
  dsimp only
  split
  · exact .pure _ fun _ _ _ => trivial
  · rename_i hother
    split
    · rename_i slot hslot
      refine .bind (Q := fun _ _ => True) (.modify (fun _ => rfl) ?_) fun _ =>
        .pure _ fun _ _ _ => trivial
      rintro m' hm ⟨rfl, -⟩
      have hfield := hm.metafield (m'.stack[position]?.getD .nil) .call
      rw [hslot] at hfield
      exact ⟨hm.insertAt position hfield, trivial⟩
    · exact .fail _

theorem invoke_clean {failed : ScriptError → Act ScriptError Unit}
    (hfailed : ∀ e, (failed e).Careful (Carried e) (fun _ => Carried e) Carried) :
    (invoke failed position wanted).Clean := by
  refine .get_bind fun m => ?_
  dsimp only
  split
  · exact (Act.Careful.throw _ fun _ _ _ => Machine.carried_of_text rfl :
      Act.Careful _ (throw ScriptError.stackOverflow) _ _)
  · refine .bind (.lift ((callee_clean position).pre fun _ _ _ => trivial)) fun slot => .get_bind fun m => ?_
    split
    · exact .lift (.fail _)
    · refine .bind (Q := fun _ _ => True) (.modify (fun _ => rfl) fun _ hm _ => ⟨{ hm with }, trivial⟩)
        fun _ => .enter_bind (fun count => ?_) fun e => ?_
      · exact .modify (fun m => m.returnResults_events _ _ _) fun _ hm _ =>
          ⟨hm.returnResults _ _ _, trivial⟩
      · exact .bind (hfailed e) fun _ => .bind (Q := fun _ => Carried e)
          (.modify (fun _ => rfl) fun _ hm he => ⟨{ hm with }, he⟩) fun _ => .throw e fun _ _ he => he

theorem callHandler_clean (position : Nat) : (callHandler position).Clean :=
  invoke_clean fun e => .modify (fun _ => rfl) fun _ hm he => ⟨hm.errorValue e, he⟩

/-- A handler that is called with what is there leaves an outcome for it. -/
theorem runHandler_careful (handler raised : Value) :
    (runHandler handler raised : Act ε Unit).Careful
      (fun m => m.heap.Present handler ∧ m.heap.Present raised) (fun _ => Covered raised) E := by
  refine .get_bind fun m => .bind (Q := fun _ _ => True) (.modify_log ?_ ?_) fun _ =>
    .bind (.attempt (R := fun _ _ => True) ((callHandler_clean _).post (fun _ _ _ => id)
      fun _ _ _ _ => trivial)) fun result => ?_
  · intro m
    rw [Machine.beginHandling_eq]
    exact List.suffix_cons _ _
  · rintro _ hm ⟨rfl, hhandler, hraised⟩ -
    exact ⟨hm.beginHandling hhandler hraised, trivial⟩
  · have hend : ∀ (position : Nat) (answer : Option Value), Act.Careful
        (fun m => ∀ v, answer = some v → m.heap.Present v)
        (modify (·.endHandling position raised answer) : Act ε PUnit) (fun _ => Covered raised) E := by
      refine fun position answer => .modify_log (fun m => ?_) fun m hm hanswer hlog =>
        ⟨hm.endHandling position hanswer, Machine.covered_endHandling hlog⟩
      rw [Machine.endHandling_events]
      exact List.suffix_cons _ _
    cases result with
    | ok _ =>
        exact .get_bind fun m' => .bind (.pure _ fun m hm h v hv =>
          Option.some.inj hv ▸ h.1 ▸ hm.stack_getD _) (hend _)
    | error _ => exact .bind (.pure _ fun _ _ _ => nofun) (hend _)

/-- An error that is shown to a handler goes on while it is there, or covered. -/
theorem showHandler_careful (e : ScriptError) :
    (showHandler e : Act ε Unit).Careful (Carried e) (fun _ => Carried e) E := by
  refine .modifyGet_bind (Q := fun _ => Carried e) (fun _ => rfl)
    (fun m hm he => ⟨hm.errorValue e, he⟩) fun m₀ => .get_bind fun m => ?_
  split
  · exact .pure _ fun _ _ h => h.1 ▸ h.2
  · rename_i g rest hguards
    dsimp only
    cases hhandler : g.handler with
    | none => exact .pure _ fun _ _ h => h.1 ▸ h.2
    | some handler =>
        -- A handler that has not seen the error yet is called while its value is there.
        have hrun : ∀ known : Bool,
            (known = false → ∀ d, g.decoration = some d → d.raised ≠ (m₀.errorValue e).1) →
            Act.Careful (fun m' => m' = m ∧ Carried e m)
              (if g.running || known then pure () else runHandler handler (m₀.errorValue e).1 : Act ε Unit)
              (fun _ => Carried e) E := by
          intro known hknown
          split
          · exact .pure _ fun _ _ h => h.1 ▸ h.2
          · rename_i hdue
            have hunseen := hknown (by simp_all)
            refine ((runHandler_careful handler _).pre ?_).post
              (fun _ m _ hcovered v hv => .inr ?_) fun _ _ _ => id
            · rintro m hm ⟨rfl, he⟩
              refine ⟨(hm.guards g (hguards ▸ List.mem_cons_self)).handler handler hhandler, ?_⟩
              rcases m₀.errorValue_cases e with ⟨v, rfl, heq⟩ | ⟨-, id, strings, heq⟩ <;>
                rw [heq] at hunseen ⊢
              · rcases he v rfl with hpresent | ⟨g', d, hg', hd, hraised⟩
                · exact hpresent
                · obtain rfl : g = g' := by simpa [hguards] using hg'
                  exact absurd hraised (hunseen d hd)
              · exact Heap.present_of_ref? rfl
            · obtain rfl := ScriptError.eq_value hv
              exact hcovered
        cases hd : g.decoration with
        | none => exact hrun false fun _ d hd' => by rw [hd] at hd'; cases hd'
        | some d =>
            refine hrun (d.raised == (m₀.errorValue e).1) fun hunseen d' hd' => ?_
            rw [hd] at hd'
            cases hd'
            exact beq_eq_false_iff_ne.mp hunseen

theorem callAt_clean (position : Nat) (wanted : Int) : (callAt position wanted).Clean :=
  invoke_clean showHandler_careful

theorem functionBelow_clean (count : Nat) : (functionBelow count).Clean :=
  .get_bind fun m => by
    split
    · exact .pure _ fun _ _ _ => trivial
    · exact .fail _

theorem call_clean (count : Nat) (wanted : Int) : (call count wanted).Clean :=
  .bind (.lift (functionBelow_clean count)) fun _ => callAt_clean _ _

theorem protectedCall_clean (count : Nat) (wanted : Int) (handler : Option StackIndex) :
    (protectedCall count wanted handler).Clean := by
  refine .bind (.lift (functionBelow_clean count)) fun position => .get_bind fun m =>
    .bind (Q := fun _ _ => True) (.modify (fun _ => rfl) ?_) fun _ =>
      .bind (.attempt (R := fun r m => ∀ e, r = .error e → Carried e m)
        ((callAt_clean position wanted).post ?_ ?_)) fun result => ?_
  · rintro _ hm ⟨rfl, -⟩
    refine ⟨hm.pushGuard fun v hv => ?_, trivial⟩
    obtain ⟨i, -, rfl⟩ := Option.map_eq_some_iff.mp hv
    exact hm.value i
  · exact fun _ _ _ _ _ => nofun
  · rintro e m - he _ ⟨⟩
    exact he
  · cases result with
    | ok _ => exact .modify (fun _ => rfl) fun _ hm _ => ⟨hm.popGuard, trivial⟩
    | error e =>
        exact .bind ((showHandler_careful e).pre fun _ _ he => he e rfl) fun _ =>
          .bind (Q := Carried) (.modifyGet (fun _ => rfl) fun _ hm he => hm.failProtected he _ _)
            fun final => .throw _ fun _ _ he => he

end Act

end ScriptHost
