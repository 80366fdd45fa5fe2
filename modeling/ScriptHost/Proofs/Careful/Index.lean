import ScriptHost.Namespace
import ScriptHost.Proofs.Careful.Collect

/-! # Indexing and the identity cache

Accesses through metatables pass from one thing that is there to the next, and the cache remembers what
is there.
-/

namespace ScriptHost

theorem Hop.through_cases {α : Type} (field : Value) :
    (∃ slot, field = .function slot ∧ (through field : Hop α) = .handler slot) ∨
      (through field : Hop α) = .follow field := by
  unfold through
  split
  · exact .inl ⟨_, rfl, rfl⟩
  · exact .inr rfl

namespace Machine

variable {m : Machine} {v key : Value}

/-- An access ends at an entry of a table, or a metafield of the value decides. -/
theorem readHop_cases {hop : Hop Value} (h : m.readHop v key = .ok hop) :
    (∃ slot, hop = .done (m.rawGet slot key)) ∨ hop = .through (m.metafield v .index) := by
  unfold readHop at h
  dsimp only at h
  split at h
  · split at h <;> cases h
    · exact .inr rfl
    · exact .inl ⟨_, rfl⟩
  · split at h <;> cases h
    exact .inr rfl

theorem writeHop_cases {hop : Hop Nat} (h : m.writeHop v key = .ok hop) :
    (∃ slot, hop = .done slot) ∨ hop = .through (m.metafield v .newindex) := by
  unfold writeHop at h
  dsimp only at h
  split at h
  · split at h <;> cases h
    · exact .inl ⟨_, rfl⟩
    · exact .inr rfl
  · split at h <;> cases h
    exact .inr rfl

end Machine

open Machine (Carried)

namespace Act

variable {ε : Type} {E : ε → Machine → Prop}

/-- What an access needs of the value that it looks at and of its key. -/
theorem readChain_careful (v key : Value) (fuel : Nat) :
    (readChain v key fuel).Careful (fun m => m.heap.Present v ∧ m.heap.Present key)
      (fun w m => m.heap.Present w) Carried := by
  induction fuel generalizing v with
  | zero => exact .lift (.fail _)
  | succ fuel ih =>
      refine .get_bind fun m => ?_
      cases hhop : m.readHop v key with
      | error f => exact .lift (.fail _)
      | ok hop =>
          have hcall : ∀ slot, Act.Careful
              (fun m' => m'.heap.Present (.function slot) ∧ m'.heap.Present v ∧ m'.heap.Present key) (do
                modify fun m => ((m.push (.function slot)).push v).push key
                callAt m.stack.size 1
                let result := (← get).stack[m.stack.size]?.getD .nil
                modify (·.truncate m.stack.size)
                pure result : Act ScriptError Value) (fun w m' => m'.heap.Present w) Carried := fun slot =>
            .bind (Q := fun _ _ => True) (.modify (fun _ => rfl) fun _ hm ⟨hslot, hv, hkey⟩ =>
              ⟨((hm.push hslot).push hv).push hkey, trivial⟩) fun _ =>
            .bind (callAt_clean _ _) fun _ => .get_bind fun m₁ =>
            .bind (Q := fun _ m' => m'.heap.Present (m₁.stack[m.stack.size]?.getD .nil))
              (.modify (fun _ => rfl) fun _ hm h => ⟨hm.truncate _, h.1 ▸ hm.stack_getD _⟩) fun _ =>
            .pure _ fun _ _ hw => hw
          rcases m.readHop_cases hhop with ⟨slot, rfl⟩ | rfl
          · exact .pure _ fun _ hm h => h.1 ▸ hm.rawGet slot key
          · rcases Hop.through_cases (α := Value) (m.metafield v .index) with ⟨slot, hf, hthrough⟩ | hthrough
            all_goals rw [hthrough]
            · refine (hcall slot).pre ?_
              rintro _ hm ⟨rfl, hv, hkey⟩
              exact ⟨hf ▸ hm.metafield v .index, hv, hkey⟩
            · refine (ih _).pre ?_
              rintro _ hm ⟨rfl, -, hkey⟩
              exact ⟨hm.metafield v .index, hkey⟩

theorem writeChain_careful (v key new : Value) (fuel : Nat) :
    (writeChain v key new fuel).Careful
      (fun m => m.heap.Present v ∧ m.heap.Present key ∧ m.heap.Present new)
      (fun _ _ => True) Carried := by
  induction fuel generalizing v with
  | zero => exact .lift (.fail _)
  | succ fuel ih =>
      refine .get_bind fun m => ?_
      cases hhop : m.writeHop v key with
      | error f => exact .lift (.fail _)
      | ok hop =>
          have hcall : ∀ slot, Act.Careful (fun m' => m'.heap.Present (.function slot) ∧
              m'.heap.Present v ∧ m'.heap.Present key ∧ m'.heap.Present new) (do
                modify fun m => (((m.push (.function slot)).push v).push key).push new
                callAt m.stack.size 0
                modify (·.truncate m.stack.size) : Act ScriptError Unit) (fun _ _ => True) Carried :=
            fun slot =>
            .bind (Q := fun _ _ => True) (.modify (fun _ => rfl) fun _ hm ⟨hslot, hv, hkey, hnew⟩ =>
              ⟨(((hm.push hslot).push hv).push hkey).push hnew, trivial⟩) fun _ =>
            .bind (callAt_clean _ _) fun _ => .modify (fun _ => rfl) fun _ hm _ => ⟨hm.truncate _, trivial⟩
          rcases m.writeHop_cases hhop with ⟨slot, rfl⟩ | rfl
          · exact .lift ((Op.rawStore_careful slot key new).pre fun _ _ h => h.1 ▸ h.2.2)
          · rcases Hop.through_cases (α := Nat) (m.metafield v .newindex) with ⟨slot, hf, hthrough⟩ | hthrough
            all_goals rw [hthrough]
            · refine (hcall slot).pre ?_
              rintro _ hm ⟨rfl, h⟩
              exact ⟨hf ▸ hm.metafield v .newindex, h⟩
            · refine (ih _).pre ?_
              rintro _ hm ⟨rfl, -, h⟩
              exact ⟨hm.metafield v .newindex, h⟩

theorem getTable_clean (i : StackIndex) : (getTable i).Clean :=
  .get_bind fun _ =>
    .bind ((readChain_careful _ _ _).pre fun _ hm h => h.1 ▸ ⟨hm.value i, hm.topValue⟩) fun _ =>
    .bind (Q := fun _ _ => True) (.modify (fun _ => rfl) fun _ hm hv => ⟨(hm.pop 1).push hv, trivial⟩)
      fun _ => .pure _ fun _ _ _ => trivial

theorem setTable_clean (i : StackIndex) : (setTable i).Clean :=
  .get_bind fun _ =>
    .bind ((writeChain_careful _ _ _ _).pre fun _ hm h =>
      h.1 ▸ ⟨hm.value i, hm.value _, hm.topValue⟩) fun _ =>
    .modify (fun _ => rfl) fun _ hm _ => ⟨hm.pop 2, trivial⟩

/-! ## The cache -/

theorem cacheGet_careful (key : CacheKey NativeCode) :
    (cacheGet key : Act ε Bool).Careful (fun _ => True) (fun _ _ => True) E := by
  refine .get_bind fun m => ?_
  cases hv : m.cache.get? key with
  | none => exact .pure _ fun _ _ _ => trivial
  | some v =>
      refine .bind (Q := fun _ _ => True) (.modify (fun _ => rfl) ?_) fun _ => .pure _ fun _ _ _ => trivial
      rintro _ hm ⟨rfl, -⟩
      exact ⟨hm.push (hm.cached _ (IdentityCache.mem_entries hv)), trivial⟩

end Act

namespace Machine

variable {m : Machine} {v : Value}

theorem Intact.remember (hm : m.Intact) (key : CacheKey NativeCode) (hv : m.heap.Present v) :
    { m with cache := m.cache.insert key v }.Intact := by
  have hrest : ∀ e ∈ (m.cache.erase key).entries, m.heap.Present e.2 := fun e he =>
    hm.cached e (List.mem_of_mem_filter he)
  refine { hm with cached := ?_ }
  change ∀ e ∈ (m.cache.insert key v).entries, m.heap.Present e.2
  unfold IdentityCache.insert
  dsimp only
  split
  · exact hrest
  · exact List.forall_mem_cons.mpr ⟨hv, hrest⟩

end Machine

end ScriptHost
