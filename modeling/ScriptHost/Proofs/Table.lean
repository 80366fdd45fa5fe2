import ScriptHost.Proofs.Border

/-! # Tables without holes

A table in which no entry was ever set to nil keeps no nil at all: its array is a sequence without
holes, and its length is the number of keys 1, 2, … in sequence.
-/

namespace ScriptHost.Table

variable {t : Table} {entries : List (Key × Value)} {v : Value}

/-- Each key once, and none without a value. -/
structure Distinct (entries : List (Key × Value)) : Prop where
  nodup : (entries.map (·.1)).Nodup
  values : ∀ e ∈ entries, e.2.isNil = false

/-- The array holds the values of the keys from 1 on and has no holes; the key after it is absent. -/
structure Dense (t : Table) : Prop where
  items : ∀ v ∈ t.array, v.isNil = false
  entries : Distinct t.entries
  outside : ∀ i : Int, 1 ≤ i → i ≤ t.array.size + 1 → t.entries.lookup (.integer i) = none

theorem dense_empty : Dense {} :=
  ⟨by simp, ⟨List.nodup_nil, by simp⟩, fun _ _ _ => rfl⟩

theorem Dense.layered (ht : t.Dense) : t.Layered where
  nodup := ht.entries.nodup
  shadowed i h hle := by
    rw [entryValue, ht.outside i h hle]
    rfl
  trimmed v hv := ht.items v (Array.mem_of_getElem? hv)

theorem Dense.not_keeps_nil (ht : t.Dense) : ¬ t.Keeps .nil := by
  rintro (hitem | ⟨k, hentry⟩)
  · exact Bool.noConfusion (ht.items _ hitem)
  · exact Bool.noConfusion (ht.entries.values _ hentry)

/-- Without nils a shadowed key is absent. -/
theorem Layered.dense (ht : t.Layered) (hnil : ¬ t.Keeps .nil) : t.Dense := by
  have hvalue : ∀ {w}, t.Keeps w → w.isNil = false := fun {w} hw => by
    cases w <;> first | rfl | exact absurd hw hnil
  refine ⟨fun v hv => hvalue (.inl hv), ⟨ht.nodup, fun e he => hvalue (.inr ⟨_, he⟩)⟩, fun i h hle => ?_⟩
  have hshadowed := ht.shadowed i h hle
  rw [entryValue] at hshadowed
  cases hlookup : t.entries.lookup (.integer i) with
  | none => rfl
  | some w =>
      rw [hlookup, Option.getD_some] at hshadowed
      exact absurd (.inr ⟨_, hshadowed ▸ mem_of_lookup hlookup⟩) hnil

theorem Dense.getInt_item (ht : t.Dense) {i : Int} (h : 1 ≤ i) (hle : i ≤ t.array.size) :
    (t.getInt i).isNil = false := by
  have hlt : (i - 1).toNat < t.array.size := by omega
  rw [getInt_array h hle, Array.getElem?_eq_getElem hlt, Option.getD_some]
  exact ht.items _ (Array.getElem_mem hlt)

theorem Dense.getInt_next (ht : t.Dense) : t.getInt (t.array.size + 1) = .nil := by
  rw [getInt_entry (by omega)]
  exact ht.layered.shadowed (t.array.size + 1) (by omega) (Int.le_refl _)

/-- The border is where the array ends. -/
theorem Dense.length_eq (ht : t.Dense) : t.length = t.array.size :=
  ht.layered.length_eq

/-- Storing a value under a key changes what is read under that key only, and makes no holes. -/
theorem Dense.set (ht : t.Dense) (key : Key) (hv : v.isNil = false) :
    (t.set key v).Dense ∧ ∀ k, (t.set key v).get k = if k = key then v else t.get k := by
  obtain ⟨hlayered, hget⟩ := ht.layered.set key v
  refine ⟨hlayered.dense fun hnil => ?_, hget⟩
  rcases (keeps_set t key v).1 _ hnil with rfl | hold
  · cases hv
  · exact ht.not_keeps_nil hold

/-- Storing nil at the border changes nothing. -/
theorem Dense.set_nil (ht : t.Dense) : t.set (.integer (t.array.size + 1)) .nil = t := by
  have hnone := ht.outside (t.array.size + 1) (by omega) (Int.le_refl _)
  rw [set_entry (fun i hi h => by cases hi; omega) fun _ => rfl]
  unfold storeEntry
  rcases overwriteValue?_spec t.entries (.integer (t.array.size + 1)) .nil with
    ⟨hover, -⟩ | ⟨replaced, -, hkeys, -, hlookup⟩
  · rw [hover]
    rfl
  · have hin := hlookup (.integer (t.array.size + 1))
    rw [if_pos rfl] at hin
    have hmem := List.mem_map_of_mem (f := (·.1)) (mem_of_lookup hin)
    rw [hkeys] at hmem
    exact absurd hmem (lookup_eq_none.mp hnone)

end ScriptHost.Table
