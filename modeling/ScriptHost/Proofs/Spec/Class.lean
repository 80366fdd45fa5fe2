import ScriptHost.Proofs.Lawful.Class
import ScriptHost.Proofs.Spec.Marshal

/-! # What assignments and class functions leave on the stack

An assignment takes off what it assigns. Functions are set in a global table that is gone from the stack
again afterwards, and a function of the global table `class` is pushed, whatever has to be set up for it.
-/

namespace ScriptHost

open Machine
open Act (Pushed)

namespace Op

variable {b : Nat} {s : List Value} {v : Value}

theorem rawGetField_meets (i : StackIndex) (name : String) :
    Meets (Laid b s) (rawGetField i name) (fun _ => Pushed b s) (Over b s) :=
  .bind (tableAt_meets _ fun _ hl => hl.over_self) fun _ =>
    .bind (Q := fun _ => Laid b s) (fun _ hl => hl.of_eq rfl rfl) fun _ => .bind .get fun _ =>
      .bind (Q := fun _ => Pushed b s) (.modify fun _ hl => ⟨_, hl.push⟩) fun _ => .pure fun _ => id

/-- The value is taken off. -/
theorem rawSetField_meets (i : StackIndex) (name : String) (hb : b ≤ s.length) :
    Meets (Laid b (s ++ [v])) (rawSetField i name) (fun _ => Laid b s) (Over b s) :=
  .bind .get fun _ => .bind (tableAt_meets _ fun _ hl => hl.over) fun _ =>
    .bind (Q := fun _ => Laid b (s ++ [v])) (fun _ hl => hl.of_eq rfl rfl) fun _ =>
      .bind (Q := fun _ => Laid b (s ++ [v])) (.modify fun _ hl => hl.of_eq rfl rfl) fun _ =>
        .modify fun _ hl => hl.pop hb rfl

end Op

namespace Act

variable {b : Nat} {s : List Value} {v key : Value}

theorem Pushed.pop {m : Machine} (h : Pushed b s m) (hb : b ≤ s.length) : Laid b s (m.pop 1) := by
  obtain ⟨v, hl⟩ := h
  exact hl.pop hb rfl

/-! ## Assignments -/

theorem writeChain_spec (v key new : Value) (fuel : Nat) (s : List Value) :
    Spec (Laid b s) (writeChain v key new fuel) (fun _ => Laid b s) (Over b s) := by
  induction fuel generalizing v with
  | zero => exact .lift (.fail _) fun _ _ hl => hl.over_self
  | succ fuel ih =>
      refine .of_cases (writeChain_lawful _ _ _ _) fun {host m} hhost hm hl hc => ?_
      unfold Op.after at hc
      rw [writeChain, run_bind, run_get] at hc ⊢
      dsimp only at hc ⊢
      cases hhop : m.writeHop v key with
      | error f => exact hl.over_self
      | ok hop =>
          rw [hhop] at hc
          cases hop with
          | done slot => exact Op.rawStore_meets slot key new m hl
          | follow next => exact (ih next).ended hhost hm hl hc
          | handler slot =>
              simp only [run_bind, run_modify] at hc ⊢
              have hpushed : Laid b (s ++ .function slot :: [v, key, new])
                  ((((m.push (.function slot)).push v).push key).push new) := by
                simpa using (((hl.push (v := .function slot)).push (v := v)).push (v := key)).push (v := new)
              rw [hl.size] at hc ⊢
              have hlaid := callAt_laid 0 hhost hpushed
              cases h : callAt s.length 0 host ((((m.push (.function slot)).push v).push key).push new) with
              | ok u m₁ =>
                  rw [h] at hc hlaid
                  rw [Op.after_ok h] at hlaid
                  obtain ⟨results, hresults, -⟩ := hlaid hc
                  exact hresults.over.truncate
              | error e m₁ =>
                  rw [h] at hc hlaid
                  rw [Op.after_error h] at hlaid
                  exact hlaid hc

/-- Key and value are taken off; if the assignment fails, both are left. -/
theorem setTable_spec (i : StackIndex) (hb : b ≤ s.length) :
    Spec (Laid b (s ++ [key, v])) (setTable i) (fun _ => Laid b s) (Over b (s ++ [key, v])) := by
  refine .get_bind (setTable_lawful i) fun m _ hm => ?_
  refine .bind ((writeChain_spec _ _ _ _ (s ++ [key, v])).pre fun _ h => h ▸ hm) fun _ => ?_
  exact .modify (fun _ => leads_pop) fun _ _ hl => hl.pop hb rfl

/-- The value is taken off; if the assignment fails, it is left above its key. -/
theorem setField_spec (i : StackIndex) (name : String) (hb : b ≤ s.length) :
    Spec (Laid b (s ++ [v])) (setField i name) (fun _ => Laid b s) (fun m => ∃ key, Over b (s ++ [key, v]) m) := by
  refine .get_bind (setField_lawful i name) fun m _ hm => ?_
  refine .bind (Q := fun _ => Pushed b (s ++ [v])) (.modify (fun _ => leads_pushText) fun m₁ _ hl => ?_)
    fun _ => .exists_pre fun key => ?_
  · subst hl
    exact Reading.pushed_pushText _ hm
  · refine .bind (Q := fun _ => Laid b (s ++ key :: [v])) (insert_spec fun m hl => ?_) fun _ =>
      (setTable_spec _ hb).post (fun _ _ => id) fun _ h => ⟨key, h⟩
    rw [List.append_assoc] at hl
    exact hl.position_fromTop hb rfl

/-! ## Global tables -/

/-- The table on top gives way to the one that the path ends at. -/
theorem enterTables_spec (conflict : Fault) (path : List String) (hb : b ≤ s.length) :
    Spec (Pushed b s) (enterTables conflict path) (fun _ => Pushed b s) (Over b s) := by
  induction path with
  | nil => exact .pure fun _ => id
  | cons segment rest ih =>
      refine .exists_pre fun v => ?_
      have hb' : b ≤ (s ++ [v]).length := by
        rw [List.length_append]
        omega
      have hrest : ∀ _ : PUnit, Spec (Pushed b (s ++ [v])) (do
          Op.remove (.fromTop 2)
          enterTables conflict rest : Act ScriptError Unit) (fun _ => Pushed b s) (Over b s) := by
        refine fun _ => .exists_pre fun w => ?_
        rw [List.append_assoc]
        exact .bind (remove_spec (v := v) (t := [w]) fun m hl => hl.position_fromTop hb rfl) fun _ =>
          ih.pre fun _ hl => ⟨w, hl⟩
      refine .bind (Q := fun _ => Pushed b (s ++ [v])) (.lift (Op.rawGetField_lawful _ _) fun m _ hl =>
        (Op.rawGetField_meets _ _ m hl).imp (fun _ _ => id) fun _ h => h.below) fun kind => ?_
      have hover : ∀ m, Pushed b (s ++ [v]) m → Over b s m := fun _ h => h.over.below
      cases kind with
      | table => exact hrest ⟨⟩
      | nil =>
          refine .bind (Q := fun _ => Laid b (s ++ [v])) (.modify (fun _ => leads_pop) fun _ _ hp =>
            hp.pop hb') fun _ => .bind (newTable_spec (s ++ [v]) _) fun _ => .exists_pre fun made => ?_
          refine .bind (Q := fun _ => Pushed b (s ++ [v] ++ [made])) (.modify (fun _ => leads_pushAt)
            fun _ _ hl => ⟨_, hl.push⟩) fun _ => .exists_pre fun copy => ?_
          have hb'' : b ≤ (s ++ [v] ++ [made]).length := by
            rw [List.length_append]
            omega
          exact .bind (Q := fun _ => Pushed b (s ++ [v])) (.lift (Op.rawSetField_lawful _ _) fun m _ hl =>
            (Op.rawSetField_meets _ _ hb'' m hl).imp (fun _ _ hl => ⟨made, hl⟩) fun _ h => h.below.below) hrest
      | absent | boolean | light | number | string | function | userdata =>
          exact .bind (Q := fun _ _ => False) (.lift (.fail _) fun m _ hp => hover m hp) fun _ =>
            (hrest ⟨⟩).pre fun _ h => h.elim

/-- A global table is pushed, or the stack is as it was. -/
theorem findTable_spec (name : String) (s : List Value) :
    Spec (Laid b s) (findTable name) (fun _ => Pushed b s) (Laid b s) := by
  refine .get_bind (findTable_lawful name) fun m hframed hm => ?_
  have hb := hm.base_le hframed
  refine .bind (Q := fun _ => Pushed b s) (.modify (fun _ => leads_pushAt) fun _ _ hl => ?_) fun _ => ?_
  · subst hl
    exact ⟨_, hm.push⟩
  refine .bind (.attempt (enterTables_spec _ _ hb)) fun r => ?_
  cases r with
  | ok _ => exact .pure fun _ => id
  | error e =>
      refine .bind (Q := fun _ => Laid b s) (.modify (fun _ => leads_setTop) fun _ _ hl => ?_)
        fun _ => .throw fun _ => id
      refine hl.setTop ?_
      rw [hm.top]
      omega

theorem setFunctions_spec (functions : List (String × NativeCode)) (hb : b ≤ s.length) :
    Spec (Laid b s) (setFunctions functions) (fun _ => Laid b s) (Over b s) := by
  induction functions with
  | nil => exact .pure fun _ => id
  | cons f rest ih =>
      obtain ⟨field, code⟩ := f
      rw [setFunctions]
      exact .bind (pushNative_spec _ s _) fun _ => .exists_pre fun v => .bind
        ((setField_spec _ _ hb).post (fun _ _ => id) fun _ ⟨_, h⟩ => h.below) fun _ => ih

theorem register_spec (name : String) (functions : List (String × NativeCode)) (hb : b ≤ s.length) :
    Spec (Laid b s) (register (some name) functions) (fun _ => Laid b s) (Over b s) := by
  refine .bind ((findTable_spec name s).post (fun _ _ => id) fun _ hl => hl.over_self) fun _ =>
    .exists_pre fun table => .bind ((setFunctions_spec functions ?_).post (fun _ _ => id)
      fun _ h => h.below) fun _ => ?_
  · rw [List.length_append]
    omega
  · exact .modify (fun _ => leads_pop) fun _ _ hl => hl.pop hb rfl

/-! ## Class functions -/

theorem cachedGlobal_spec (name : String) {cached : CacheKey NativeCode} (hcached : ∀ code, cached ≠ .native code)
    (s : List Value) : Spec (Laid b s) (cachedGlobal name cached) (fun _ => Pushed b s) (Laid b s) := by
  refine .bind (cacheGet_spec cached s _) fun found => ?_
  cases found with
  | true => exact .pure fun _ h => h.1 rfl
  | false =>
      refine .bind ((getGlobal_spec name s).pre fun _ h => h.2 rfl) fun _ => ?_
      refine ⟨cacheSet_lawful hcached, fun _ _ hp hrun _ => ?_, fun _ _ _ hrun _ => by cases hrun⟩
      obtain ⟨v, hl⟩ := hp
      cases hrun
      exact ⟨v, hl.of_eq rfl rfl⟩

/-- A class function is pushed, after the classes were installed if they were not there. -/
theorem pushClassFunction_spec (code : NativeCode) (s : List Value) :
    Spec (Laid b s) (pushClassFunction code) (fun _ => Pushed b s) (Over b s) := by
  refine .of_cases (pushClassFunction_lawful code) fun hhost hm hl hc => ?_
  have hb := hl.base_le hm
  have htoken : ∀ other : NativeCode, CacheKey.token (Class.token code) ≠ .native other :=
    fun _ h => by cases h
  have hcached : Spec (Laid b s) (cachedGlobal (Class.path code) (.token (Class.token code)))
      (fun _ => Pushed b s) (Over b s) :=
    (cachedGlobal_spec _ htoken s).post (fun _ _ => id) fun _ hl => hl.over_self
  have hspec : Spec (Laid b s) (pushClassFunction code) (fun _ => Pushed b s) (Over b s) := by
    refine .bind (cacheGet_spec _ s _) fun found => ?_
    cases found with
    | true => exact .pure fun _ h => h.1 rfl
    | false =>
        refine .bind (((getGlobal_spec "class" s).pre fun _ h => h.2 rfl).post (fun _ _ => id)
          fun _ hl => hl.over_self) fun kind => ?_
        refine .bind (Q := fun _ => Laid b s) (.modify (fun _ => leads_pop) fun _ _ hp => hp.pop hb)
          fun _ => .ite ?_ hcached
        exact .bind (register_spec _ _ hb) fun _ => hcached
  exact hspec.ended hhost hm hl hc

end Act

end ScriptHost
