import ScriptHost.Machine.RawTable
import ScriptHost.Proofs.Careful

/-! # Stack and tables

What moves values or reads and writes entries without metamethods puts on the stack and into the heap
only what it took from there.
-/

namespace ScriptHost

namespace Machine

variable {m : Machine}

theorem Intact.intern (hm : m.Intact) (bytes : Bytes) : (m.intern bytes).2.Intact := { hm with }

theorem Intact.pushInt (hm : m.Intact) (n : Int) : (m.pushInt n).Intact :=
  (hm.ofInt n).1.push (hm.ofInt n).2.1

end Machine

open Machine (Carried)

namespace Op

variable {P : Machine → Prop} {i : StackIndex} {v key : Value} {name : String} {slot : Nat}

/-! ## The stack -/

theorem position_careful (i : StackIndex) : (position i).Careful P (fun _ => P) Carried :=
  .get_bind fun m => by
    split
    · exact .pure _ fun _ _ h => h.1 ▸ h.2
    · exact .fail _

theorem insert_clean (i : StackIndex) : (insert i).Clean :=
  .bind (position_careful i) fun p => .modify (fun m => by unfold Machine.sinkTop; split <;> rfl)
    fun _ hm _ => ⟨hm.sinkTop p, trivial⟩

theorem remove_clean (i : StackIndex) : (remove i).Clean :=
  .bind (position_careful i) fun p => .modify (fun _ => rfl) fun _ hm _ => ⟨hm.eraseAt p, trivial⟩

theorem store_careful (i : StackIndex) (v : Value) :
    (store i v).Careful (·.heap.Present v) (fun _ _ => True) Carried := by
  have hslot : ∀ i, (do let p ← position i; modify (·.putAt p v) : Op ScriptError PUnit).Careful
      (·.heap.Present v) (fun _ _ => True) Carried := fun i =>
    .bind (position_careful i) fun p => .modify (fun _ => rfl) fun _ hm hv => ⟨hm.putAt p hv, trivial⟩
  unfold store
  cases i with
  | fromBottom n | fromTop n => exact hslot _
  | registry => exact .fail _
  | environment =>
      dsimp only
      split
      · exact .modify (fun _ => rfl) fun _ hm hv => ⟨{ hm with globals := hv }, trivial⟩
      · exact .fail _
  | upvalue n =>
      refine .get_bind fun m => ?_
      split
      · exact .fail _
      · dsimp only
        split
        · exact .fail _
        · refine .modify (fun _ => rfl) ?_
          rintro _ hm ⟨rfl, hv⟩
          exact ⟨hm.change (.upvalue _ _ v) (hm.heap.setUpvalue hv), trivial⟩

theorem replace_clean (i : StackIndex) : (replace i).Clean :=
  .get_bind fun _ =>
    .bind ((store_careful _ _).pre fun _ hm h => h.1 ▸ hm.topValue) fun _ =>
      .modify (fun _ => rfl) fun _ hm _ => ⟨hm.pop 1, trivial⟩

/-- Whatever an operation did, the stack may be cut. -/
theorem pop_careful {ε : Type} {E : ε → Machine → Prop} (n : Nat) :
    (modify (·.pop n) : Op ε PUnit).Careful P (fun _ _ => True) E :=
  .modify (fun _ => rfl) fun _ hm _ => ⟨hm.pop n, trivial⟩

/-! ## Entries -/

theorem tableAt_careful (i : StackIndex) : (tableAt i).Careful P (fun _ => P) Carried :=
  .get_bind fun m => by
    split
    · exact .pure _ fun _ _ h => h.1 ▸ h.2
    · exact .fail _

theorem setEntry_careful {ε : Type} {E : ε → Machine → Prop} {k : Key} :
    (modify (·.setEntry slot k v) : Op ε PUnit).Careful
      (fun m => (∀ w, k.object? = some w → m.heap.Present w) ∧ m.heap.Present v)
      (fun _ _ => True) E :=
  .modify (fun _ => rfl) fun _ hm ⟨hk, hv⟩ =>
    ⟨hm.change (.entry slot k v) (hm.heap.setEntry hk hv), trivial⟩

theorem rawStore_careful (slot : Nat) (key v : Value) :
    (rawStore slot key v).Careful (fun m => m.heap.Present key ∧ m.heap.Present v)
      (fun _ _ => True) Carried := by
  refine .get_bind fun m => ?_
  split
  · exact .fail _
  · rename_i k hk
    refine setEntry_careful.pre ?_
    rintro _ - ⟨rfl, hkey, hv⟩
    exact ⟨Machine.present_key? hk hkey, hv⟩
  · exact .fail _

theorem rawGet_clean (i : StackIndex) : (rawGet i).Clean :=
  .get_bind fun _ => .bind (tableAt_careful _) fun slot => .get_bind fun m =>
    .bind (Q := fun _ m' => m'.heap.Present (m.rawGet slot m.topValue)) (.modify (fun _ => rfl) (by
      rintro _ hm ⟨rfl, -⟩
      exact ⟨hm.pop 1, hm.rawGet slot _⟩)) fun _ =>
    .bind (Q := fun _ _ => True) (.modify (fun _ => rfl) fun _ hm hv => ⟨hm.push hv, trivial⟩) fun _ =>
    .pure _ fun _ _ _ => trivial

theorem rawSet_clean (i : StackIndex) : (rawSet i).Clean :=
  .get_bind fun _ => .bind (tableAt_careful _) fun _ => .get_bind fun _ =>
    .bind ((rawStore_careful _ _ _).pre fun _ hm h => h.1 ▸ ⟨hm.value _, hm.topValue⟩) fun _ =>
    pop_careful 2

theorem push_careful {ε : Type} {E : ε → Machine → Prop} (v : Value) :
    (modify (·.push v) : Op ε PUnit).Careful (·.heap.Present v) (fun _ _ => True) E :=
  .modify (fun _ => rfl) fun _ hm hv => ⟨hm.push hv, trivial⟩

theorem rawGetInt_clean (i : StackIndex) (n : Int) : (rawGetInt i n).Clean :=
  .bind (tableAt_careful _) fun slot => .get_bind fun _ =>
    .bind ((push_careful _).pre fun _ hm h => h.1 ▸ hm.heap.get slot (.integer n)) fun _ =>
    .pure _ fun _ _ _ => trivial

theorem rawSetInt_clean (i : StackIndex) (n : Int) : (rawSetInt i n).Clean :=
  .get_bind fun _ => .bind (tableAt_careful _) fun slot =>
    .bind (Q := fun _ _ => True) (.modify (fun _ => rfl) fun _ hm _ =>
      ⟨hm.change (.entry slot _ _) (hm.heap.setEntry nofun hm.topValue), trivial⟩) fun _ =>
    pop_careful 1

theorem rawGetField_clean (i : StackIndex) (name : String) : (rawGetField i name).Clean :=
  .bind (tableAt_careful _) fun slot =>
    .bind (Q := fun _ _ => True) (.modifyGet (fun _ => rfl) fun _ hm _ => ⟨hm.intern _, trivial⟩) fun id =>
    .get_bind fun _ =>
    .bind ((push_careful _).pre fun _ hm h => h.1 ▸ hm.heap.get slot (.string id)) fun _ =>
    .pure _ fun _ _ _ => trivial

theorem rawSetField_clean (i : StackIndex) (name : String) : (rawSetField i name).Clean :=
  .get_bind fun _ => .bind (tableAt_careful _) fun slot =>
    .bind (Q := fun _ _ => True) (.modifyGet (fun _ => rfl) fun _ hm _ => ⟨hm.intern _, trivial⟩) fun id =>
    .bind (Q := fun _ _ => True) (.modify (fun _ => rfl) fun _ hm _ =>
      ⟨hm.change (.entry slot (.string id) _) (hm.heap.setEntry nofun hm.topValue), trivial⟩) fun _ =>
    pop_careful 1

theorem next_clean (i : StackIndex) : (next i).Clean := by
  refine .get_bind fun _ => .bind (tableAt_careful _) fun slot => .get_bind fun _ =>
    .bind (pop_careful 1) fun _ => .get_bind fun m => ?_
  dsimp only
  split
  · rename_i k v hnext
    refine .bind (Q := fun w m' => m'.heap.Present w ∧ m'.heap.Present v) (.modifyGet ?_ ?_) fun w => ?_
    · intro m
      unfold Machine.keyValue
      split <;> rfl
    · rintro _ hm ⟨rfl, -⟩
      obtain ⟨hv, hk⟩ := hm.heap.next hnext
      obtain ⟨hmade, hw, hkeep⟩ := hm.keyValue hk
      exact ⟨hmade, hw, hkeep hv⟩
    · exact .bind (Q := fun _ m => m.heap.Present v) (.modify (fun _ => rfl) fun _ hm ⟨hw, hv⟩ =>
        ⟨hm.push hw, hv⟩) fun _ => .bind (push_careful v) fun _ => .pure _ fun _ _ _ => trivial
  · exact .pure _ fun _ _ _ => trivial
  · exact .fail _

theorem setMetatable_clean (i : StackIndex) : (setMetatable i).Clean := by
  have htable : ∀ (slot : Nat) (metatable : Option Nat), Op.Careful
      (fun m => ∀ s, metatable = some s → m.heap.Present (.table s)) (do
        modify fun m => { m with heap := m.heap.modifyTable slot fun t => { t with metatable } }
        modify (·.pop 1) : Op ScriptError Unit) (fun _ _ => True) Carried := fun slot mt =>
    .bind (Q := fun _ _ => True) (.modify (fun _ => rfl) fun _ hm hmt =>
      ⟨hm.change (.tableMeta slot mt) (hm.heap.setTableMeta hmt), trivial⟩) fun _ => pop_careful 1
  have huserdata : ∀ (slot : Nat) (metatable : Option Nat), Op.Careful
      (fun m => ∀ s, metatable = some s → m.heap.Present (.table s)) (do
        modify fun m => { m with heap := m.heap.modifyUserdata slot fun u => { u with metatable } }
        modify (·.pop 1) : Op ScriptError Unit) (fun _ _ => True) Carried := fun slot mt =>
    .bind (Q := fun _ _ => True) (.modify (fun _ => rfl) fun _ hm hmt =>
      ⟨hm.change (.userMeta slot mt) (hm.heap.setUserMeta hmt), trivial⟩) fun _ => pop_careful 1
  have hother : ∀ (P : Machine → Prop) (f : Fault), Op.Careful P (do
      fail f
      modify (·.pop 1) : Op ScriptError Unit) (fun _ _ => True) Carried := fun _ f =>
    .bind (Q := fun _ _ => True) (.fail f) fun _ => pop_careful 1
  refine .get_bind fun m => ?_
  dsimp only
  -- The metatable is told from the value on top, and then the value that gets it is looked at.
  split <;> refine .bind (Q := fun mt m => ∀ s, mt = some s → m.heap.Present (.table s)) ?_ fun mt => ?_
  · exact .pure _ fun _ _ _ => nofun
  · split
    exacts [htable _ _, huserdata _ _, hother _ _]
  · rename_i slot htop
    refine .pure _ ?_
    rintro _ hm ⟨rfl, -⟩ s hs
    obtain rfl := Option.some.inj hs
    have hpresent := hm.topValue
    rwa [htop] at hpresent
  · split
    exacts [htable _ _, huserdata _ _, hother _ _]
  · exact .fail _
  · split
    exacts [htable _ _, huserdata _ _, hother _ _]

theorem setUserValue_clean (i : StackIndex) : (setUserValue i).Clean :=
  .get_bind fun m => by
    split
    · rename_i slot hslot
      refine .bind (Q := fun _ _ => True) (.modify (fun _ => rfl) ?_) fun _ => pop_careful 1
      rintro _ hm ⟨rfl, -⟩
      exact ⟨hm.change (.userValue _ _) (hm.heap.setUserValue hm.topValue), trivial⟩
    · exact .fail _

end Op

end ScriptHost
