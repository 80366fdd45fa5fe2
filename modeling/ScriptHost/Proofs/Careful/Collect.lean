import ScriptHost.Proofs.Careful.Call

/-! # Collection and allocation

Collections are careful: what a machine keeps survives the cycle, and finalizers are called with what is
there. So is closing a machine, and making objects.
-/

namespace ScriptHost

open Machine (Carried)

namespace Machine

variable {m : Machine} {slot f : Nat}

/-- A userdata whose metatable has a finalizer is there. -/
theorem present_of_finalizer (h : m.metafield (.userdata slot) .finalizer = .function f) :
    m.heap.Present (.userdata slot) := by
  rw [Heap.present_object]
  intro hnone
  have hu : m.heap.userdata? slot = none := Option.map_eq_none_iff.mp hnone
  simp [metafield, metaEntry, metatable?, hu] at h

theorem Intact.beginTurn (hm : m.Intact) (slot : Nat) : (m.beginTurn slot).Intact := by
  have hset : (m.heap.setFinalized slot).Intact :=
    hm.heap.of_references (Heap.sound_setFinalized hm.heap.sound) (fun _ => rfl) fun _ => id
  exact { hm.of_roots hset fun _ _ hv => hv with }

theorem suffix_note (event : Nat → Event) (slot : Nat) (m : Machine) :
    m.events <:+ (m.note event slot).events := by
  rw [note_eq]
  exact List.suffix_append _ _

theorem suffix_cycle (m : Machine) : m.events <:+ m.cycle.2.2.events := by
  rw [cycle_events]
  exact (List.suffix_cons _ _).trans (List.suffix_append _ _)

theorem suffix_shut (m : Machine) : m.events <:+ m.shut.2.events := by
  rw [shut_events]
  exact (List.suffix_cons _ _).trans (List.suffix_append _ _)

/-- The new function captures the top of the stack and takes its place. -/
theorem Intact.pushFunction {f : Closure Native} (hm : m.Intact) (first : Nat)
    (hf : ∀ v ∈ f.upvalues, v ∈ m.stack) : (({ m with heap := (m.heap.newFunction f).2 }.truncate
      first).push (.function (m.heap.newFunction f).1)).Intact :=
  (hm.truncate first).gain (hm.heap.gains_newFunction fun v hv => hm.stack v (hf v hv))

theorem Intact.note (hm : m.Intact) (event : Nat → Event) (slot : Nat) : (m.note event slot).Intact := by
  rw [note_eq]
  exact { hm with }

end Machine

namespace Act

variable {ε : Type} {P : Machine → Prop} {E : ε → Machine → Prop}

theorem finalize_careful (slot : Nat) :
    (finalize slot : Act ε Unit).Careful (fun _ => True) (fun _ _ => True) E := by
  refine .bind (Q := fun _ _ => True) (.modify_log (fun _ => List.suffix_cons _ _)
    fun _ hm _ _ => ⟨hm.beginTurn slot, trivial⟩) fun _ => .get_bind fun m => ?_
  split
  · rename_i f hf
    dsimp only
    refine .bind (Q := fun _ _ => True) (.modify (fun _ => rfl) ?_) fun _ =>
      .bind (Q := fun _ _ => True) (.modify (fun _ => rfl) fun _ hm _ => ⟨hm.pushGuard nofun, trivial⟩)
        fun _ => .get_bind fun m' => ?_
    · rintro m hm ⟨rfl, -⟩
      have hfield := hm.metafield (.userdata slot) .finalizer
      rw [hf] at hfield
      exact ⟨(hm.push hfield).push (Machine.present_of_finalizer hf), trivial⟩
    · have hend : Act.Careful (fun _ => True) (do
          let _ ← attempt (callAt m.stack.size 0)
          modify fun m' => (m'.popGuard.truncateFrames m.depth).truncate m.stack.size : Act ε PUnit)
          (fun _ _ => True) E :=
        .bind (.attempt (R := fun _ _ => True) ((callAt_clean _ _).post (fun _ _ _ => id)
          fun _ _ _ _ => trivial)) fun _ => .modify (fun _ => rfl) fun m' hm _ => by
            have hleft : (m'.popGuard.truncateFrames m.depth).Intact := { hm.popGuard with }
            exact ⟨hleft.truncate _, trivial⟩
      split
      · exact .bind (Q := fun _ _ => True) (.modify_log (Machine.suffix_note _ slot) fun _ hm _ _ =>
          ⟨hm.note _ slot, trivial⟩) fun _ => hend
      · exact hend.pre fun _ _ _ => trivial
  · exact .pure _ fun _ _ _ => trivial

theorem finalizeAll_careful (queue : List Nat) :
    (finalizeAll queue : Act ε Unit).Careful (fun _ => True) (fun _ _ => True) E := by
  unfold finalizeAll
  induction queue.reverse with
  | nil => exact .pure _ fun _ _ _ => trivial
  | cons slot rest ih => exact .bind (finalize_careful slot) fun _ => ih

theorem collect_careful : (collect : Act ε Nat).Careful (fun _ => True) (fun _ _ => True) E :=
  .get_bind fun _ => .ite (.pure _ fun _ _ _ => trivial)
    (.bind (Q := fun _ _ => True) (.modifyGet_log Machine.suffix_cycle
      fun _ hm _ => ⟨hm.cycle, trivial⟩) fun (queue, _) => .bind (finalizeAll_careful queue) fun _ =>
        .pure _ fun _ _ _ => trivial)

theorem collectIfDue_careful : (collectIfDue : Act ε Unit).Careful (fun _ => True) (fun _ _ => True) E :=
  .get_bind fun _ => .ite (.bind (collect_careful.pre fun _ _ _ => trivial) fun _ =>
    .pure _ fun _ _ _ => trivial) (.pure _ fun _ _ _ => trivial)

theorem close_careful : (close : Act ε Unit).Careful (fun _ => True) (fun _ _ => True) E :=
  .get_bind fun _ => .ite
    (.bind (Q := fun _ _ => True) (.modifyGet_log Machine.suffix_shut
      fun _ hm _ => ⟨hm.shut, trivial⟩) fun queue => .bind (finalizeAll_careful queue) fun _ =>
        .modify (fun _ => rfl) fun _ hm _ => ⟨{ hm with cached := nofun }, trivial⟩)
    (.pure _ fun _ _ _ => trivial)

/-! ## Allocation -/

theorem pushFunction_careful (behaviour : Behaviour) (upvalues : Nat) (origin : Origin) :
    (pushFunction behaviour upvalues origin : Act ε Unit).Careful (fun _ => True) (fun _ _ => True) E :=
  .bind collectIfDue_careful fun _ => .modify (fun _ => rfl) fun _ hm _ =>
    ⟨hm.pushFunction _ fun _ => Machine.mem_extract, trivial⟩

theorem newTable_careful : (newTable : Act ε Unit).Careful (fun _ => True) (fun _ _ => True) E :=
  .bind collectIfDue_careful fun _ => .modify (fun _ => rfl) fun _ hm _ =>
    ⟨hm.gain hm.heap.gains_newTable, trivial⟩

theorem newUserdata_careful (size : Nat) :
    (newUserdata size : Act ε Address).Careful (fun _ => True) (fun _ _ => True) E :=
  .bind collectIfDue_careful fun _ => .modifyGet (fun _ => rfl) fun _ hm _ =>
    ⟨hm.gain (hm.heap.gains_newUserdata size), trivial⟩

end Act

end ScriptHost
