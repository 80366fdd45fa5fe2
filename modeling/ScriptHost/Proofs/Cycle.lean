import ScriptHost.Machine.Collect
import ScriptHost.Proofs.Tracing

/-! # What a cycle of the collector does

A cycle keeps what the roots reach, and what userdata reach that no root reaches but that still need
their finalizer. All other objects are freed, and nothing that is kept changes.
-/

namespace ScriptHost

namespace Heap

variable {β : Type} {h h' : Heap β} {r : Ref} {p : Value → Prop}

/-- What is reached depends on what objects hold only. -/
theorem reaches_congr (href : ∀ r, h'.references r = h.references r) :
    h'.Reaches p r ↔ h.Reaches p r := by
  constructor <;> intro hr <;> induction hr with
  | start hv hr => exact .start hv hr
  | step _ hv hr ih => exact .step ih (mem_references.mp (href _ ▸ mem_references.mpr hv)) hr

theorem mem_finalizable {name : StringId} {slot : Nat} :
    slot ∈ h.finalizable name ↔ ∃ u, h.userdata? slot = some u ∧
      ¬ h.marking.Marked ⟨.userdata, slot⟩ ∧ h.isFinalized slot = false ∧
      h.hasMetaEntry u name = true := by
  simp only [finalizable, List.mem_filterMap, Prod.exists, Arena.mem_occupied, Marking.Marked]
  constructor
  · rintro ⟨s, u, hu, hs⟩
    split at hs
    · cases hs
    · split at hs
      · obtain rfl := Option.some.inj hs
        exact ⟨u, hu, by simp_all⟩
      · cases hs
  · rintro ⟨u, hu, hm, hf, he⟩
    exact ⟨slot, u, hu, by simp [hm, hf, he]⟩

/-- The userdata that are due are listed in the order of their slots. -/
theorem finalizable_sorted {name : StringId} : (h.finalizable name).Pairwise (· < ·) := by
  have hsorted := Arena.occupied_sorted (a := h.userdata)
  rw [List.pairwise_map] at hsorted
  refine List.pairwise_filterMap.mpr (hsorted.imp fun {e e'} hlt s hs s' hs' => ?_)
  have hslot : ∀ {e : Nat × Userdata} {s : Nat},
      (if h.marking.marks.contains ⟨.userdata, e.1⟩ || h.isFinalized e.1 then none
        else if h.hasMetaEntry e.2 name then some e.1 else none) = some s → e.1 = s := by
    intro e s hs
    split at hs
    · cases hs
    · split at hs
      · exact Option.some.inj hs
      · cases hs
  rw [← hslot hs, ← hslot hs']
  exact hlt

end Heap

namespace Machine

variable {m : Machine} {v : Value} {r : Ref} {slot : Nat} {slots : List Nat}

theorem mem_roots : v ∈ m.roots ↔ m.IsRoot v := by
  simp only [roots, List.mem_append, Array.mem_toList_iff, List.mem_cons, List.not_mem_nil,
    or_false, IdentityCache.values, List.mem_map, Prod.exists, List.mem_flatMap, guardRoots,
    Option.mem_toList]
  constructor
  · rintro (((hv | rfl | rfl) | ⟨key, w, hv, rfl⟩) | ⟨g, hg, hv | hv⟩)
    · exact .stack hv
    · exact .registry
    · exact .globals
    · exact .cached hv
    · exact .handler hg hv
    · split at hv
      · rename_i d hd
        rcases List.mem_cons.mp hv with rfl | hv
        · exact .raised hg hd
        · rw [List.mem_singleton.mp hv]
          exact .outcome hg hd
      · cases hv
  · rintro (hv | _ | _ | hv | ⟨hg, hv⟩ | ⟨hg, hd⟩ | ⟨hg, hd⟩)
    · exact .inl (.inl (.inl hv))
    · exact .inl (.inl (.inr (.inl rfl)))
    · exact .inl (.inl (.inr (.inr rfl)))
    · exact .inl (.inr ⟨_, _, hv, rfl⟩)
    · exact .inr ⟨_, hg, .inl hv⟩
    · exact .inr ⟨_, hg, .inr (by simp [hd])⟩
    · exact .inr ⟨_, hg, .inr (by simp [hd])⟩

/-- Only members of a list are reached, if the roots lead to these and they to no others. -/
theorem Reached.mem (rs : List Ref) (hroots : ∀ v ∈ m.roots, ∀ r, v.ref? = some r → r ∈ rs)
    (hrs : ∀ r ∈ rs, ∀ v ∈ m.heap.references r, ∀ r', v.ref? = some r' → r' ∈ rs) (hr : m.Reached r) :
    r ∈ rs := by
  induction hr with
  | start hv hr => exact hroots _ (mem_roots.mpr hv) _ hr
  | step _ hv hr ih => exact hrs _ ih _ (Heap.mem_references.mpr hv) _ hr

/-! ## Events -/

/-- The event of a slot that enters the queue of finalizers. -/
def queuedEvent? (h : Heap Native) (slot : Nat) : Option Event :=
  (h.userdata? slot).map fun u => .queued slot u.serial

theorem note_eq {event : Nat → Event} :
    m.note event slot =
      { m with events := ((m.heap.userdata? slot).map fun u => event u.serial).toList ++ m.events } := by
  unfold note
  cases m.heap.userdata? slot <;> rfl

/-- Entering slots into the queue changes the log only. -/
theorem enqueue_eq : m.enqueue slots =
    { m with events := (slots.filterMap (queuedEvent? m.heap)).reverse ++ m.events } := by
  unfold enqueue
  induction slots generalizing m with
  | nil => rfl
  | cons slot slots ih =>
      rw [List.foldl_cons, ih, note_eq, List.filterMap_cons]
      cases hq : m.heap.userdata? slot <;> simp [queuedEvent?, hq]

@[simp] theorem heap_log {event : Event} : (m.log event).heap = m.heap := rfl

@[simp] theorem heap_note {event : Nat → Event} : (m.note event slot).heap = m.heap := by
  rw [note_eq]

@[simp] theorem heap_enqueue : (m.enqueue slots).heap = m.heap := by
  rw [enqueue_eq]

theorem shut_heap : m.shut.2.heap = m.heap.prepare := by
  simp only [shut, heap_enqueue]
  rfl

/-! ## The cycle -/

/-- A userdata is due when no root reaches it, it was not finalized, and its metatable has an entry
    for the finalizer. -/
def Due (m : Machine) (slot : Nat) : Prop :=
  ∃ u, m.heap.userdata? slot = some u ∧ ¬ m.Reached ⟨.userdata, slot⟩ ∧
    m.heap.isFinalized slot = false ∧ m.heap.hasMetaEntry u Metafield.finalizer.id = true

/-- What a cycle keeps: what the roots reach, and what userdata that are due reach. -/
def Kept (m : Machine) (r : Ref) : Prop :=
  m.Reached r ∨ m.heap.Reaches (fun v => ∃ slot, m.Due slot ∧ v = .userdata slot) r

theorem markReachable_heap :
    m.markReachable.heap = ((m.heap.prepare.markAll m.roots).propagate).2 := rfl

theorem markDue_heap :
    (m.markDue slots).heap = ((m.heap.markAll (slots.map Value.userdata)).propagate).2 := by
  simp only [markDue, heap_enqueue]

theorem traced_markReachable : m.markReachable.heap.Traced := Heap.traced_prepare.propagate

/-- Of the objects there are, the first marking marks those that the roots reach. -/
theorem marked_markReachable (hr : m.heap.contents? r ≠ none) :
    m.markReachable.heap.marking.Marked r ↔ m.Reached r := by
  rw [markReachable_heap, Heap.traced_prepare.marked_propagate]
  have href : ∀ r, m.heap.prepare.references r = m.heap.references r := fun _ => rfl
  have hreaches : m.heap.prepare.Reaches (· ∈ m.roots) r ↔ m.Reached r := by
    rw [Heap.reaches_congr href]
    exact ⟨Heap.Reaches.mono fun _ => mem_roots.mp, Heap.Reaches.mono fun _ => mem_roots.mpr⟩
  rw [hreaches]
  exact or_iff_right (Heap.not_marked_prepare hr)

theorem mem_due_markReachable : slot ∈ m.markReachable.due ↔ m.Due slot := by
  rw [due, Heap.mem_finalizable]
  refine exists_congr fun u => and_congr_right fun hu => and_congr_left fun _ => ?_
  refine not_congr (marked_markReachable ?_)
  simp [Heap.contents?, show m.heap.userdata.get? slot = some u from hu]

/-- A cycle queues exactly the userdata that are due. -/
theorem mem_cycle_queue : slot ∈ m.cycle.1 ↔ m.Due slot := mem_due_markReachable

theorem cycle_queue_sorted : m.cycle.1.Pairwise (· < ·) := Heap.finalizable_sorted

theorem cycle_queue_nodup : m.cycle.1.Nodup := cycle_queue_sorted.imp Nat.ne_of_lt

/-- The only userdata is queued alone if it is due. -/
theorem cycle_queue_singleton (hdue : m.Due slot)
    (honly : ∀ {s : Nat} {u : Userdata}, m.heap.userdata? s = some u → s = slot) : m.cycle.1 = [slot] := by
  refine List.perm_singleton.mp ((List.perm_ext_iff_of_nodup cycle_queue_nodup (List.nodup_singleton slot)).mpr
    fun s => ?_)
  rw [mem_cycle_queue, List.mem_singleton]
  constructor
  · rintro ⟨u, hu, -⟩
    exact honly hu
  · rintro rfl
    exact hdue

/-- The heap of a cycle when all marks are made. -/
def marked (m : Machine) : Heap Native := (m.markReachable.markDue m.cycle.1).heap

theorem marked_eq : ∃ marking, m.marked = { m.heap with marking } := by
  rw [marked, markDue_heap, markReachable_heap, Heap.propagate_markAll, Heap.propagate_markAll]
  exact ⟨_, rfl⟩

/-- A cycle changes heap and log only. -/
theorem cycle_eq : ∃ heap events, m.cycle.2.2 = { m with heap, events } := by
  have hdue : ∀ (m : Machine) (slots), ∃ heap events,
      (m.markDue slots).sweep.2 = { m with heap, events } := by
    intro m slots
    simp only [markDue, enqueue_eq, sweep]
    exact ⟨_, _, rfl⟩
  obtain ⟨heap, events, h⟩ := hdue m.markReachable m.markReachable.due
  exact ⟨heap, events, h⟩

theorem cycle_heap : m.cycle.2.2.heap = m.marked.sweep.2 := rfl

theorem contents?_marked : m.marked.contents? r = m.heap.contents? r := by
  obtain ⟨marking, h⟩ := m.marked_eq
  rw [h]
  rfl

theorem sound_marked (hm : m.heap.Sound) : m.marked.Sound := by
  obtain ⟨marking, h⟩ := m.marked_eq
  rw [h]
  exact hm.of_eq hm.tables hm.functions hm.boxed rfl rfl rfl rfl

/-- Of the objects there are, both markings together mark those that are kept. -/
theorem marked_iff_kept (hr : m.heap.contents? r ≠ none) : m.marked.marking.Marked r ↔ m.Kept r := by
  have href : ∀ r, m.markReachable.heap.references r = m.heap.references r := by
    rw [markReachable_heap, Heap.propagate_markAll]
    exact fun _ => rfl
  rw [marked, markDue_heap, traced_markReachable.marked_propagate, marked_markReachable hr,
    Heap.reaches_congr href, Kept]
  refine or_congr_right ⟨Heap.Reaches.mono fun v hv => ?_, Heap.Reaches.mono fun v hv => ?_⟩
  · obtain ⟨slot, hslot, rfl⟩ := List.mem_map.mp hv
    exact ⟨slot, mem_cycle_queue.mp hslot, rfl⟩
  · obtain ⟨slot, hslot, rfl⟩ := hv
    exact List.mem_map.mpr ⟨slot, mem_cycle_queue.mpr hslot, rfl⟩

theorem contents?_cycle_of_kept (hm : m.heap.Sound) (hr : m.Kept r) :
    m.cycle.2.2.heap.contents? r = m.heap.contents? r := by
  rw [cycle_heap, Heap.contents?_sweep (sound_marked hm), contents?_marked]
  by_cases hnone : m.heap.contents? r = none
  · simp [hnone]
  · exact if_pos ((marked_iff_kept hnone).mpr hr)

theorem userdata?_cycle_of_kept {u : Userdata} (hm : m.heap.Sound) (hu : m.heap.userdata? slot = some u)
    (hr : m.Kept ⟨.userdata, slot⟩) : m.cycle.2.2.heap.userdata? slot = some u := by
  have hsame := contents?_cycle_of_kept hm hr
  simp only [Heap.contents?, show m.heap.userdata.get? slot = some u from hu] at hsame
  obtain ⟨u', hu', heq⟩ := Option.map_eq_some_iff.mp hsame
  obtain rfl := (Heap.Contents.userdata.inj heq).1
  exact hu'

theorem contents?_cycle_of_not_kept (hm : m.heap.Sound) (hr : ¬ m.Kept r) :
    m.cycle.2.2.heap.contents? r = none := by
  rw [cycle_heap, Heap.contents?_sweep (sound_marked hm), contents?_marked]
  by_cases hnone : m.heap.contents? r = none
  · simp [hnone]
  · exact if_neg fun hmark => hr ((marked_iff_kept hnone).mp hmark)

/-- A cycle frees userdata but makes none. -/
theorem userdata?_cycle {u : Userdata} (hu : m.cycle.2.2.heap.userdata? slot = some u) :
    m.heap.userdata? slot = some u := by
  obtain ⟨marking, h⟩ := m.marked_eq
  have hget : (m.marked.userdata.sweep m.marked.marking.marks.userdata).get? slot = some u := hu
  rw [Arena.get?_sweep, h] at hget
  split at hget
  · exact hget
  · cases hget

theorem isFinalized_cycle : m.cycle.2.2.heap.isFinalized slot = m.heap.isFinalized slot := by
  obtain ⟨marking, h⟩ := m.marked_eq
  rw [cycle_heap, h]
  rfl

theorem nextSerial_cycle : m.cycle.2.2.heap.nextSerial = m.heap.nextSerial := by
  obtain ⟨marking, h⟩ := m.marked_eq
  rw [cycle_heap, h]
  rfl

theorem cycle_sound (hm : m.heap.Sound) : m.cycle.2.2.heap.Sound :=
  Heap.sweep_sound (sound_marked hm)

/-- The objects that a cycle frees, each once. -/
theorem cycle_freed_refs : ∃ freed : List Ref, freed.Nodup ∧
    (∀ r, r ∈ freed ↔ m.heap.contents? r ≠ none ∧ ¬ m.Kept r) ∧ m.cycle.2.1 = freed.length := by
  refine ⟨m.marked.unmarkedRefs, Heap.unmarkedRefs_nodup, fun r => ?_, Heap.sweep_freed⟩
  rw [Heap.mem_unmarkedRefs, contents?_marked]
  exact and_congr_right fun hr => not_congr (marked_iff_kept hr)

end Machine

end ScriptHost
