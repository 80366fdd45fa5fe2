import Mathlib.Data.List.Nodup
import Mathlib.Tactic.Common
import ScriptHost.Heap.Arena

/-! # Arenas keep their free slots

The list of free slots holds every empty slot exactly once, so a new object never takes the place of
another, and a sweep frees every slot once.
-/

namespace ScriptHost.Arena

variable {α : Type} {a : Arena α} {slot s : Nat} {x : α} {f : α → α} {marks : Array Bool}

/-- The free slots are the empty ones, each listed once. -/
structure Sound (a : Arena α) : Prop where
  nodup : a.free.Nodup
  mem_free : ∀ {s}, s ∈ a.free ↔ s < a.slots.size ∧ a.get? s = none

theorem sound_empty : Sound ({} : Arena α) :=
  ⟨List.nodup_nil, by simp⟩

theorem lt_size (h : a.get? slot = some x) : slot < a.slots.size := by
  by_contra hge
  simp [get?, Array.getElem?_eq_none (Nat.not_lt.mp hge)] at h

/-! ## Insertion -/

/-- A new object goes into an empty slot. -/
theorem get?_insert_slot (ha : a.Sound) : a.get? (a.insert x).1 = none := by
  unfold insert
  split
  · rename_i h
    exact (ha.mem_free.mp (h ▸ List.mem_cons_self)).2
  · simp [get?]

/-- As long as a slot is free no new one is made. -/
theorem insert_slot_mem (hs : s ∈ a.free) : (a.insert x).1 ∈ a.free := by
  unfold insert
  split
  · rename_i h
    rw [h]
    exact List.mem_cons_self
  · rename_i h
    rw [h] at hs
    cases hs

theorem insert_slot_le (ha : a.Sound) : (a.insert x).1 ≤ a.slots.size := by
  unfold insert
  split
  · rename_i h
    exact Nat.le_of_lt (ha.mem_free.mp (h ▸ List.mem_cons_self)).1
  · exact Nat.le_refl _

theorem get?_insert (ha : a.Sound) :
    (a.insert x).2.get? s = if s = (a.insert x).1 then some x else a.get? s := by
  unfold insert
  split
  · rename_i first free h
    have hlt := (ha.mem_free.mp (h ▸ List.mem_cons_self)).1
    by_cases hs : s = first
    · subst hs
      simp [get?, hlt]
    · simp [get?, hs, Ne.symm hs]
  · by_cases hs : s = a.slots.size
    · simp [get?, hs]
    · simp [get?, hs, Array.getElem?_push]

theorem insert_sound (ha : a.Sound) : (a.insert x).2.Sound := by
  have hget : ∀ s, (a.insert x).2.get? s = if s = (a.insert x).1 then some x else a.get? s :=
    fun _ => get?_insert ha
  revert hget
  unfold insert
  split
  · rename_i first free h
    intro hget
    have hnd := ha.nodup
    rw [h, List.nodup_cons] at hnd
    refine ⟨hnd.2, fun {s} => ?_⟩
    rw [hget]
    have := ha.mem_free (s := s)
    rw [h] at this
    by_cases hs : s = first
    · simp [hs, hnd.1]
    · simp_all
  · rename_i h
    intro hget
    refine ⟨h ▸ List.nodup_nil, fun {s} => ?_⟩
    rw [hget]
    have := ha.mem_free (s := s)
    rw [h] at this ⊢
    by_cases hs : s = a.slots.size
    · simp [hs]
    · have : s < a.slots.size + 1 ↔ s < a.slots.size := by omega
      simp_all

/-! ## Changes -/

theorem get?_modify : (a.modify slot f).get? s = if s = slot then (a.get? s).map f else a.get? s := by
  unfold modify get?
  rw [Array.getElem?_modify]
  by_cases h : slot = s
  · subst h
    cases a.slots[slot]? <;> simp
  · simp [h, Ne.symm h]

theorem modify_sound (ha : a.Sound) : (a.modify slot f).Sound := by
  refine ⟨ha.nodup, fun {s} => ?_⟩
  have hsize : (a.modify slot f).slots.size = a.slots.size := by simp [modify]
  rw [get?_modify, hsize, show (a.modify slot f).free = a.free from rfl, ha.mem_free]
  split <;> simp

/-! ## Occupied slots -/

theorem mem_occupied : (s, x) ∈ a.occupied ↔ a.get? s = some x := by
  simp only [occupied, List.mem_filterMap, Prod.exists, List.mk_mem_zipIdx_iff_getElem?,
    Option.map_eq_some_iff, Prod.mk.injEq, get?, Option.join_eq_some_iff, Array.getElem?_toList]
  constructor
  · rintro ⟨_, _, hs, y, rfl, rfl, rfl⟩
    exact hs
  · intro hs
    exact ⟨_, _, hs, x, rfl, rfl, rfl⟩

/-- The occupied slots come in order. -/
theorem occupied_sorted : (a.occupied.map (·.1)).Pairwise (· < ·) := by
  rw [List.pairwise_map, occupied, List.pairwise_filterMap]
  have hidx : (a.slots.toList.zipIdx.map (·.2)).Pairwise (· < ·) := by
    rw [List.zipIdx_map_snd]
    exact List.pairwise_lt_range'
  refine (List.pairwise_map.mp hidx).imp fun {p q} hlt b hb c hc => ?_
  simp only [Option.map_eq_some_iff] at hb hc
  obtain ⟨_, _, rfl⟩ := hb
  obtain ⟨_, _, rfl⟩ := hc
  exact hlt

private theorem live_eq_length_from (l : List (Option α)) (k n : Nat) :
    l.foldl (fun n x => if x.isSome then n + 1 else n) n =
      n + ((l.zipIdx k).filterMap fun (x, slot) => x.map (slot, ·)).length := by
  induction l generalizing k n with
  | nil => rfl
  | cons x l ih =>
      cases x <;> simp [ih (k + 1)]
      omega

theorem live_eq_length : a.live = a.occupied.length := by
  rw [live, ← Array.foldl_toList, live_eq_length_from _ 0, Nat.zero_add]
  rfl

theorem occupied_nodup : a.occupied.Nodup := by
  have hslots : (a.occupied.map (·.1)).Nodup := occupied_sorted.imp Nat.ne_of_lt
  exact hslots.of_map

/-- Arenas with the same occupied slots have equally many objects. -/
theorem live_congr {γ : Type} {b : Arena γ} (h : ∀ s, a.get? s = none ↔ b.get? s = none) :
    a.live = b.live := by
  have hnodup : ∀ {δ : Type} (c : Arena δ), (c.occupied.map (·.1)).Nodup :=
    fun c => occupied_sorted.imp Nat.ne_of_lt
  have hmem : ∀ {δ : Type} (c : Arena δ) (s : Nat), s ∈ c.occupied.map (·.1) ↔ c.get? s ≠ none := by
    intro δ c s
    simp [mem_occupied, Option.ne_none_iff_exists']
  have hperm : (a.occupied.map (·.1)).Perm (b.occupied.map (·.1)) :=
    (List.perm_ext_iff_of_nodup (hnodup a) (hnodup b)).mpr fun s => by
      rw [hmem, hmem, Ne, Ne, h s]
  have hlength := hperm.length_eq
  rwa [List.length_map, List.length_map, ← live_eq_length, ← live_eq_length] at hlength

theorem live_modify : (a.modify slot f).live = a.live :=
  live_congr fun s => by
    rw [get?_modify]
    split <;> simp

theorem live_insert (ha : a.Sound) : (a.insert x).2.live = a.live + 1 := by
  have hperm : (a.insert x).2.occupied.Perm (((a.insert x).1, x) :: a.occupied) := by
    have hnew : ((a.insert x).1, x) ∉ a.occupied := by
      rw [mem_occupied, get?_insert_slot ha]
      exact (Option.some_ne_none x).symm
    apply (List.perm_ext_iff_of_nodup occupied_nodup (List.nodup_cons.mpr ⟨hnew, occupied_nodup⟩)).mpr
    rintro ⟨s, y⟩
    rw [mem_occupied, get?_insert ha, List.mem_cons, mem_occupied, Prod.mk.injEq]
    by_cases hs : s = (a.insert x).1
    · subst hs
      simp [get?_insert_slot ha, eq_comm]
    · simp [hs]
  rw [live_eq_length, live_eq_length, hperm.length_eq, List.length_cons]

/-! ## Sweeping -/

theorem get?_sweep : (a.sweep marks).get? s = if kept marks s then a.get? s else none := by
  simp only [sweep, get?, Array.getElem?_mapIdx]
  cases a.slots[s]? <;> simp

private theorem occupied_sweep_from (marks : Array Bool) (l : List (Option α)) (k : Nat)
    (g : Nat → Option α → Option α)
    (hg : ∀ i x, g i x = if kept marks (i + k) then x else none) :
    ((l.mapIdx g).zipIdx k).filterMap (fun (x, slot) => x.map (slot, ·)) =
      ((l.zipIdx k).filterMap fun (x, slot) => x.map (slot, ·)).filter
        fun (slot, _) => kept marks slot := by
  induction l generalizing k g with
  | nil => rfl
  | cons x l ih =>
      have hrest := ih (k + 1) (fun i => g (i + 1)) (fun i x => by
        rw [hg, Nat.add_right_comm, Nat.add_assoc])
      rw [List.mapIdx_cons, List.zipIdx_cons, List.zipIdx_cons, List.filterMap_cons,
        List.filterMap_cons]
      simp only [hg, Nat.zero_add]
      cases x with
      | none => simpa using hrest
      | some x =>
          by_cases hk : kept marks k = true
          · simpa [hk] using hrest
          · simpa [hk] using hrest

theorem occupied_sweep :
    (a.sweep marks).occupied = a.occupied.filter fun (slot, _) => kept marks slot := by
  have h := occupied_sweep_from marks a.slots.toList 0
    (fun slot x => if kept marks slot then x else none) (fun _ _ => rfl)
  rw [← Array.toList_mapIdx] at h
  exact h

/-- What a sweep frees and what it leaves make up what was there. -/
theorem live_sweep (a : Arena α) (marks : Array Bool) :
    (a.garbage marks).length + (a.sweep marks).live = a.live := by
  rw [live_eq_length, live_eq_length, occupied_sweep, garbage, Nat.add_comm]
  exact (List.length_eq_length_filter_add _).symm

theorem mem_garbage : (s, x) ∈ a.garbage marks ↔ a.get? s = some x ∧ ¬ kept marks s := by
  simp [garbage, mem_occupied]

theorem mem_garbage_slots :
    s ∈ (a.garbage marks).map (·.1) ↔ a.get? s ≠ none ∧ ¬ kept marks s := by
  simp [mem_garbage, Option.ne_none_iff_exists']

theorem garbage_nodup (a : Arena α) (marks : Array Bool) : ((a.garbage marks).map (·.1)).Nodup :=
  (occupied_sorted.imp Nat.ne_of_lt).sublist (List.filter_sublist.map _)

theorem sweep_sound (ha : a.Sound) : (a.sweep marks).Sound := by
  refine ⟨?_, fun {s} => ?_⟩
  · rw [sweep, List.nodup_append]
    refine ⟨List.nodup_reverse.mpr (garbage_nodup _ _), ha.nodup, ?_⟩
    rintro s hs _ hfree rfl
    rw [List.mem_reverse, mem_garbage_slots] at hs
    exact hs.1 (ha.mem_free.mp hfree).2
  · rw [get?_sweep]
    have hsize : (a.sweep marks).slots.size = a.slots.size := by simp [sweep]
    rw [hsize, sweep, List.mem_append, List.mem_reverse, mem_garbage_slots, ha.mem_free]
    by_cases hk : kept marks s = true
    · simp [hk]
    · cases hs : a.get? s with
      | none => simp [hk]
      | some x => simp [hk, lt_size hs]

end ScriptHost.Arena
