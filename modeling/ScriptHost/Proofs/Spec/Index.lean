import ScriptHost.Proofs.Lawful.Index
import ScriptHost.Proofs.Spec.Call

/-! # What lookups leave on the stack

An access through metatables gives a value and leaves the stack as it was. When it fails there may be
more values on the stack than before. A global of a dotted name is pushed, or the stack stays as it
was.
-/

namespace ScriptHost.Act

open Machine

variable {ε : Type} {b : Nat} {s : List Value} {v : Value}

/-! ## Chains -/

theorem readChain_spec (v key : Value) (fuel : Nat) (s : List Value) :
    Spec (Laid b s) (readChain v key fuel) (fun _ => Laid b s) (Over b s) := by
  induction fuel generalizing v with
  | zero => exact .lift (.fail _) fun _ _ hl => hl.over_self
  | succ fuel ih =>
      refine .of_cases (readChain_lawful _ _ _) fun {host m} hhost hm hl hc => ?_
      unfold Op.after at hc
      rw [readChain, run_bind, run_get] at hc ⊢
      dsimp only at hc ⊢
      cases hhop : m.readHop v key with
      | error f => exact hl.over_self
      | ok hop =>
          rw [hhop] at hc
          cases hop with
          | done entry => exact hl
          | follow next => exact (ih next).ended hhost hm hl hc
          | handler slot =>
              simp only [run_bind, run_modify] at hc ⊢
              have hpushed : Laid b (s ++ .function slot :: [v, key])
                  (((m.push (.function slot)).push v).push key) := by
                simpa using ((hl.push (v := .function slot)).push (v := v)).push (v := key)
              rw [hl.size] at hc ⊢
              have hlaid := callAt_laid 1 hhost hpushed
              cases h : callAt s.length 1 host (((m.push (.function slot)).push v).push key) with
              | ok u m₁ =>
                  rw [h] at hc hlaid
                  rw [Op.after_ok h] at hlaid
                  obtain ⟨results, hresults, -⟩ := hlaid hc
                  exact hresults.over.truncate
              | error e m₁ =>
                  rw [h] at hc hlaid
                  rw [Op.after_error h] at hlaid
                  exact hlaid hc

/-- The key on top gives way to its value. -/
theorem getTable_spec (i : StackIndex) (key : Value) (hb : b ≤ s.length) :
    Spec (Laid b (s ++ [key])) (getTable i) (fun _ => Pushed b s) (Over b (s ++ [key])) := by
  refine .get_bind (getTable_lawful i) fun m _ hm => ?_
  refine .bind ((readChain_spec _ _ _ (s ++ [key])).pre fun _ h => h ▸ hm) fun v => ?_
  exact .bind (Q := fun _ => Pushed b s) (.modify (fun _ => leads_pop.trans leads_push)
    fun _ _ hl => ⟨_, (hl.pop hb rfl).push⟩) fun _ => .pure fun _ => id

/-- When a lookup of a name fails, the name is left at least. -/
theorem getField_spec (i : StackIndex) (name : String) (s : List Value) :
    Spec (Laid b s) (getField i name) (fun _ => Pushed b s) (fun m => ∃ key, Over b (s ++ [key]) m) := by
  refine .get_bind (getField_lawful i name) fun m hframed hm => ?_
  have hb := hm.base_le hframed
  refine .bind (Q := fun _ => Pushed b s) (.modify (fun _ => leads_pushText) fun m₁ _ hl => ?_)
    fun _ => .exists_pre fun key =>
      (getTable_spec _ key hb).post (fun _ _ => id) fun _ h => ⟨key, h⟩
  subst hl
  have hinterned : Laid b s (m₁.intern (Utf8.encode name)).2 := hm.of_eq rfl rfl
  exact ⟨_, hinterned.push⟩

/-! ## Namespaces -/

theorem followPath_spec (path : List String) (hb : b ≤ s.length) :
    Spec (Pushed b s) (followPath path) (fun _ => Pushed b s) (Over b s) := by
  induction path with
  | nil => exact .pure fun _ => id
  | cons segment rest ih =>
      refine .exists_pre fun v => ?_
      refine .bind ((getField_spec .top segment (s ++ [v])).post (fun _ _ => id)
        fun _ ⟨key, h⟩ => h.below.below) fun _ => ?_
      refine .exists_pre fun w => ?_
      rw [List.append_assoc]
      refine .bind (remove_spec (v := v) (t := [w]) fun m hl => hl.position_fromTop hb rfl) fun _ => ?_
      exact ih.pre fun m hl => ⟨w, hl⟩

/-- A global is pushed, or the stack is as it was. -/
theorem getGlobal_spec (name : String) (s : List Value) :
    Spec (Laid b s) (getGlobal name) (fun _ => Pushed b s) (Laid b s) := by
  refine .get_bind (getGlobal_lawful name) fun m hframed hm => ?_
  have hb := hm.base_le hframed
  refine .bind (Q := fun _ => Pushed b s) (.modify (fun _ => leads_pushAt) fun _ _ hl => ?_) fun _ => ?_
  · subst hl
    exact ⟨_, hm.push⟩
  refine .bind (.attempt (followPath_spec _ hb)) fun r => ?_
  cases r with
  | ok _ => exact .bind (Q := fun _ => Pushed b s) .get fun _ => .pure fun _ => id
  | error e =>
      refine .bind (Q := fun _ => Laid b s) (.modify (fun _ => leads_setTop) fun _ _ hl => ?_)
        fun _ => .throw fun _ => id
      refine hl.setTop ?_
      rw [hm.top]
      omega

/-! ## Cached functions -/

theorem cacheGet_spec (key : CacheKey NativeCode) (s : List Value) (E : Machine → Prop) :
    Spec (Laid b s) (cacheGet key : Act ε Bool)
      (fun found m => (found = true → Pushed b s m) ∧ (found = false → Laid b s m)) E := by
  refine .get_bind (cacheGet_lawful key) fun m _ hm => ?_
  cases m.cache.get? key with
  | some v =>
      refine .bind (Q := fun _ => Pushed b s) (.modify (fun _ => leads_push) fun _ _ hl => ?_)
        fun _ => .pure fun _ hl => ⟨fun _ => hl, nofun⟩
      subst hl
      exact ⟨_, hm.push⟩
  | none => exact .pure fun _ hl => ⟨nofun, fun _ => hl ▸ hm⟩

theorem cachedNative_spec (code : NativeCode) (s : List Value) (E : Machine → Prop) :
    Spec (Laid b s) (cachedNative code : Act ε Unit) (fun _ => Pushed b s) E := by
  refine .bind (cacheGet_spec _ s E) fun found => ?_
  cases found with
  | true => exact .pure fun _ h => h.1 rfl
  | false =>
      refine ((pushNative_spec code s E).pre fun _ h => h.2 rfl).then_modify (makeNative_lawful code)
        (fun _ => rfl) fun _ ⟨v, hl⟩ => ⟨v, hl.of_eq rfl rfl⟩

end ScriptHost.Act
