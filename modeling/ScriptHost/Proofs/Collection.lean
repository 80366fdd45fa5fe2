import ScriptHost.Proofs.Lawful.Program
import ScriptHost.Proofs.States

/-! # What a collection frees

The cycle of a collection frees what neither the roots nor userdata that are due reach, and nothing
else; what it keeps does not change. What the collection comes to is the number of objects that the
cycle freed.
-/

namespace ScriptHost.Machine

variable {m : Machine} {r : Ref}

/-- In every state the cycle of a collection frees exactly the objects that it must not keep, and the
    collection gives their number. -/
theorem Reachable.collect_frees (hm : m.Reachable) :
    (∀ r, m.Kept r → m.cycle.2.2.heap.contents? r = m.heap.contents? r) ∧
    (∀ r, ¬ m.Kept r → m.cycle.2.2.heap.contents? r = none) ∧
    (∃ freed : List Ref, freed.Nodup ∧ m.cycle.2.1 = freed.length ∧
      ∀ r, r ∈ freed ↔ m.heap.contents? r ≠ none ∧ m.cycle.2.2.heap.contents? r = none) ∧
    (m.closed = false → ∀ host, ∃ m',
      (Act.finalizeAll m.cycle.1 : Act ScriptError Unit) host m.cycle.2.2 = .ok () m' ∧
      (Act.collect : Act ScriptError Nat) host m = .ok m.cycle.2.1 m') := by
  have hsound := hm.heap_sound
  obtain ⟨freed, hnodup, hmem, hcount⟩ := m.cycle_freed_refs
  refine ⟨fun _ => contents?_cycle_of_kept hsound, fun _ => contents?_cycle_of_not_kept hsound,
    ⟨freed, hnodup, hcount, fun r => ?_⟩, fun hopen host => Act.collect_open host hopen⟩
  rw [hmem]
  refine and_congr_right fun hr => ⟨contents?_cycle_of_not_kept hsound, fun hgone hkept => ?_⟩
  rw [contents?_cycle_of_kept hsound hkept] at hgone
  exact hr hgone

/-- A new machine in which a table was made and dropped. -/
def littered : Machine := { create {} with heap := (create {}).heap.newTable.2 }

theorem littered_reachable : littered.Reachable :=
  (reachable_create {}).moves (.single (.change (.heap _ .newTable)))

theorem not_holds_littered {v : Value} : ¬ littered.heap.Holds r v := by
  have htables : ∀ {slot t}, littered.heap.tables.get? slot = some t → t = {} := by
    intro slot t ht
    match slot with
    | 0 | 1 | 2 => exact (Option.some.inj ht).symm
    | _ + 3 => cases ht
  intro h
  cases h with
  | item ht hv | entry ht hv | objectKey ht hv | foreignKey ht hv | tableMeta ht hv =>
      rw [htables ht] at hv
      simp at hv
  | upvalue hu | userMeta hu | userValue hu => cases hu

/-- The third table is neither the registry nor that of the globals. -/
theorem not_kept_littered : ¬ littered.Kept ⟨.table, 2⟩ := by
  rintro (h | h)
  · cases h with
    | step _ hv _ => exact not_holds_littered hv
    | start hv hr =>
        cases hv with
        | registry | globals => cases hr
        | stack hv => simp [littered, create] at hv
        | cached hv => cases hv
        | handler hg | raised hg | outcome hg => cases hg
  · cases h with
    | step _ hv _ => exact not_holds_littered hv
    | start hv hr =>
        obtain ⟨slot, -, rfl⟩ := hv
        cases hr

theorem littered_collect_frees :
    littered.Reachable ∧ littered.heap.contents? ⟨.table, 2⟩ ≠ none ∧
      littered.cycle.2.2.heap.contents? ⟨.table, 2⟩ = none ∧ littered.closed = false :=
  ⟨littered_reachable, by simp [Heap.contents?, littered, create, Heap.newTable, Arena.insert, Arena.get?],
    littered_reachable.collect_frees.2.1 _ not_kept_littered, rfl⟩

end ScriptHost.Machine
