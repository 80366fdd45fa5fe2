import ScriptHost.Namespace
import ScriptHost.Proofs.IdentityCache
import ScriptHost.Proofs.Lawful.Collect

/-! # Indexing and namespaces

Accesses through metatables call handlers on scratch values above the stack, and names are resolved
access by access.
-/

namespace ScriptHost.Act

open Machine

variable {ε : Type} {host : Host} {m m' : Machine}

/-! ## Chains -/

/-- Values that were put on top for a call are taken off again after it. -/
theorem leads_callOnTop {β : Type} {m₁ : Machine} {wanted : Int} {f : PUnit → Act ScriptError β}
    (hhost : host.Lawful) (hpush : Leads m m₁) (hbase : m₁.base = m.base)
    (hsize : m.stack.size < m₁.stack.size)
    (hf : ∀ m', m'.base ≤ m.stack.size → Leads m' (Op.after (f ⟨⟩ host) m')) :
    Leads m (Op.after ((callAt m.stack.size wanted >>= f) host) m₁) := by
  refine leads_bind_from hpush (fun hm => callAt_leads _ hhost ?_ hsize) fun hm _ m' _ hle => ?_
  · exact Nat.le_trans (Nat.le_of_eq hbase) hm
  · exact hf m' (Nat.le_trans hle hm)

theorem readChain_lawful (v key : Value) (fuel : Nat) : (readChain v key fuel).Lawful := by
  induction fuel generalizing v with
  | zero => exact .lift (.fail _)
  | succ fuel ih =>
      intro host hhost m
      refine leads_get ?_
      cases m.readHop v key with
      | error f => exact .refl
      | ok hop =>
          cases hop with
          | done entry => exact .refl
          | follow next => exact ih next host hhost m
          | handler slot =>
              refine leads_modify_from (leads_callOnTop hhost
                (leads_push.trans (leads_push.trans leads_push)) rfl ?_ fun m' hm' => ?_)
              · simp only [push, Array.size_push]
                omega
              · exact leads_get (leads_modify (leads_truncate hm') .refl)

theorem writeChain_lawful (v key new : Value) (fuel : Nat) :
    (writeChain v key new fuel).Lawful := by
  induction fuel generalizing v with
  | zero => exact .lift (.fail _)
  | succ fuel ih =>
      intro host hhost m
      refine leads_get ?_
      cases m.writeHop v key with
      | error f => exact .refl
      | ok hop =>
          cases hop with
          | done slot => exact Op.rawStore_lawful slot key new m
          | follow next => exact ih next host hhost m
          | handler slot =>
              refine leads_modify_from (leads_callOnTop hhost
                (leads_push.trans (leads_push.trans (leads_push.trans leads_push))) rfl ?_
                fun m' hm' => leads_truncate hm')
              simp only [push, Array.size_push]
              omega

theorem getTable_lawful (i : StackIndex) : (getTable i).Lawful :=
  .bind .get fun _ => .bind (readChain_lawful _ _ _) fun _ =>
    .bind (.modify fun _ => leads_pop.trans leads_push) fun _ => .pure _

theorem getField_lawful (i : StackIndex) (name : String) : (getField i name).Lawful :=
  .bind .get fun _ => .bind (.modify fun _ => leads_pushText) fun _ => getTable_lawful _

theorem setTable_lawful (i : StackIndex) : (setTable i).Lawful :=
  .bind .get fun _ => .bind (writeChain_lawful _ _ _ _) fun _ => .modify fun _ => leads_pop

theorem setField_lawful (i : StackIndex) (name : String) : (setField i name).Lawful :=
  .bind .get fun _ => .bind (.modify fun _ => leads_pushText) fun _ =>
    .bind (.lift (Op.insert_lawful _)) fun _ => setTable_lawful _

theorem newMetatable_lawful (name : String) : (newMetatable name).Lawful :=
  .bind (.lift (Op.getRegistered_lawful _)) fun _ =>
    .ite (.pure _) (.bind (.modify fun _ => leads_pop) fun _ => .bind newTable_lawful fun _ =>
      .bind (.modify fun _ => leads_pushText) fun _ => .bind (.lift (Op.rawSetField_lawful _ _)) fun _ =>
        .bind (.modify fun _ => leads_pushAt) fun _ =>
          .bind (.lift (Op.rawSetField_lawful _ _)) fun _ => .pure _)

/-! ## Namespaces -/

theorem followPath_lawful (path : List String) : (followPath path).Lawful := by
  induction path with
  | nil => exact .pure _
  | cons segment rest ih =>
      exact .bind (getField_lawful _ _) fun _ => .bind (.lift (Op.remove_lawful _)) fun _ => ih

theorem getGlobal_lawful (name : String) : (getGlobal name).Lawful :=
  .bind .get fun _ => .bind (.modify fun _ => leads_pushAt) fun _ =>
    .bind (.attempt (followPath_lawful _)) fun result => by
      cases result with
      | ok _ => exact .bind .get fun _ => .pure _
      | error _ => exact .bind (.modify fun _ => leads_setTop) fun _ => .throw _

theorem setGlobal_lawful (name : String) : (setGlobal name).Lawful := by
  unfold setGlobal
  cases Path.splitLast name with
  | none => exact setField_lawful _ _
  | some parts =>
      refine .bind .get fun _ => .bind (.attempt (.bind (getGlobal_lawful _) fun _ =>
        .bind (.lift (Op.insert_lawful _)) fun _ => setField_lawful _ _)) fun result => ?_
      cases result with
      | ok _ => exact .modify fun _ => leads_pop
      | error _ => exact .bind (.modify fun _ => leads_setTop) fun _ => .throw _

theorem cacheGet_lawful (key : CacheKey NativeCode) : (cacheGet key : Act ε Bool).Lawful :=
  .bind .get fun m => by
    cases m.cache.get? key with
    | some v => exact .bind (.modify fun _ => leads_push) fun _ => .pure _
    | none => exact .pure _

/-- Values are remembered under tokens freely. -/
theorem cacheSet_lawful {key : CacheKey NativeCode} (hkey : ∀ code, key ≠ .native code) :
    (cacheSet key : Act ε Unit).Lawful :=
  .modify fun _ => (Change.cache _ fun code _ hget => by
    rwa [IdentityCache.get?_insert, if_neg (hkey code).symm] at hget).leads

theorem cachedGlobal_lawful (name : String) {key : CacheKey NativeCode}
    (hkey : ∀ code, key ≠ .native code) : (cachedGlobal name key).Lawful :=
  .bind (cacheGet_lawful _) fun _ =>
    .ite (.bind (getGlobal_lawful _) fun _ => cacheSet_lawful hkey) (.pure _)

/-- A function object that is made for a native function and pushed is cached from there. -/
theorem leads_cached {code : NativeCode} {f : Closure Native} {made : Machine}
    (hf : f.body.behaviour = .code code) (hm : m.Framed)
    (hmade : made = ({ m with heap := (m.heap.newFunction f).2 }.truncate
      (m.stack.size - min 0 m.top)).push (.function (m.heap.newFunction f).1)) :
    Leads m { made with cache := made.cache.insert (.native code) made.topValue } := by
  have hfirst : m.base ≤ m.stack.size - min 0 m.top := by
    rw [Nat.zero_min]
    exact hm
  have hframed : ({ m with heap := (m.heap.newFunction f).2 }.truncate
      (m.stack.size - min 0 m.top)).Framed := by
    change m.base ≤ _
    rw [truncate, Array.size_shrink]
    exact Nat.le_min.mpr ⟨hfirst, hm⟩
  -- The function object is on top when it is remembered.
  have htop : made.topValue = .function (m.heap.newFunction f).1 := hmade ▸ topValue_push hframed
  rw [htop, hmade]
  refine (Change.native code f hf).leads.trans (.trans (leads_truncate ?_) leads_push)
  exact hfirst

theorem makeNative_lawful (code : NativeCode) :
    (do pushNative code; cacheSet (.native code) : Act ε Unit).Lawful := by
  rw [pushNative, pushFunction, bind_assoc]
  exact .bind collectIfDue_lawful fun _ host _ m hm => leads_cached rfl hm rfl hm

theorem cachedNative_lawful (code : NativeCode) : (cachedNative code : Act ε Unit).Lawful :=
  .bind (cacheGet_lawful _) fun _ => .ite (makeNative_lawful code) (.pure _)

theorem enterTables_lawful (conflict : Fault) (path : List String) :
    (enterTables conflict path).Lawful := by
  induction path with
  | nil => exact .pure _
  | cons segment rest ih =>
      have hrest : ∀ _ : PUnit, (do Op.remove (.fromTop 2); enterTables conflict rest :
          Act ScriptError Unit).Lawful :=
        fun _ => .bind (.lift (Op.remove_lawful _)) fun _ => ih
      refine .bind (.lift (Op.rawGetField_lawful _ _)) fun kind => ?_
      cases kind with
      | table => exact hrest ⟨⟩
      | nil =>
          exact .bind (.modify fun _ => leads_pop) fun _ => .bind newTable_lawful fun _ =>
            .bind (.modify fun _ => leads_pushAt) fun _ =>
              .bind (.lift (Op.rawSetField_lawful _ _)) hrest
      | absent | boolean | light | number | string | function | userdata =>
          exact .bind (.lift (.fail _)) hrest

theorem findTable_lawful (name : String) : (findTable name).Lawful :=
  .bind .get fun _ => .bind (.modify fun _ => leads_pushAt) fun _ =>
    .bind (.attempt (enterTables_lawful _ _)) fun result => by
      cases result with
      | ok _ => exact .pure _
      | error _ => exact .bind (.modify fun _ => leads_setTop) fun _ => .throw _

theorem setFunctions_lawful (functions : List (String × NativeCode)) :
    (setFunctions functions).Lawful := by
  induction functions with
  | nil => exact .pure _
  | cons f rest ih =>
      exact .bind (pushNative_lawful _ _) fun _ => .bind (setField_lawful _ _) fun _ => ih

theorem register_lawful (name : Option String) (functions : List (String × NativeCode)) :
    (register name functions).Lawful := by
  cases name with
  | some name =>
      exact .bind (findTable_lawful _) fun _ => .bind (setFunctions_lawful _) fun _ =>
        .modify fun _ => leads_pop
  | none => exact setFunctions_lawful _

end ScriptHost.Act
