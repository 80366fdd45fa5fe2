import ScriptHost.Proofs.Walk

/-! # Keys under which nothing was stored

A traversal goes on from a key that has a place in the table. Only a write of a value gives a key a place,
so a key under which no step ever left a value has none, and `next` refuses it. What has no key is another
matter: NaN starts a traversal over, as nil does. And an object is known by its slot, so for the tables that
it was never stored in, too, it has the places of the objects that had its slot before.
-/

namespace ScriptHost

namespace Table

variable {t : Table} {array : Array Value} {entries : List (Key × Value)} {key k : Key} {v : Value}

/-- Moving entries into the array brings in no new key. -/
theorem keys_absorb {fuel : Nat} (h : k ∈ (absorb array entries fuel).places.map (·.1)) :
    k ∈ (arrayEntries array).map (·.1) ∨ k ∈ entries.map (·.1) := by
  induction fuel generalizing array entries with
  | zero => simpa [absorb, places] using h
  | succ fuel ih =>
      rw [absorb] at h
      dsimp only at h
      cases hlookup : entries.lookup (.integer (array.size + 1)) with
      | none =>
          rw [hlookup] at h
          simpa [places] using h
      | some moved =>
          have hmoved : Key.integer (array.size + 1) ∈ entries.map (·.1) :=
            List.mem_map_of_mem (f := (·.1)) (mem_of_lookup hlookup)
          have herase : ∀ k, k ∈ (entries.eraseP (·.1 == Key.integer (array.size + 1))).map (·.1) →
              k ∈ entries.map (·.1) := fun k hk => (List.eraseP_sublist.map _).mem hk
          rw [hlookup] at h
          dsimp only at h
          split at h
          · rw [places, List.map_append, List.mem_append] at h
            exact h.imp_right (herase k)
          · rcases ih h with hitem | hentry
            · rw [arrayEntries_push, List.map_append, List.mem_append] at hitem
              rcases hitem with hitem | hlast
              · exact .inl hitem
              · rw [List.map_singleton, List.mem_singleton] at hlast
                rw [hlast]
                exact .inr hmoved
            · exact .inr (herase k hentry)

/-- A write gives a place to its own key only. -/
theorem keys_set (h : k ∈ (t.set key v).places.map (·.1)) : k = key ∨ k ∈ t.places.map (·.1) := by
  have hold : ∀ {k}, k ∈ (arrayEntries t.array).map (·.1) ∨ k ∈ t.entries.map (·.1) →
      k ∈ t.places.map (·.1) := by
    intro k hk
    rwa [places, List.map_append, List.mem_append]
  rcases set_cases t key v with ⟨i, -, -, -, heq⟩ | ⟨rfl, -, heq⟩ | ⟨-, -, heq⟩ <;> rw [heq] at h
  · right
    rw [places, List.map_append, List.mem_append] at h
    refine hold (h.imp_left fun hitem => ?_)
    obtain ⟨j, rfl, hj, hle⟩ := mem_keys_arrayEntries.mp hitem
    have hsize := setItem_size_le t.array (i - 1).toNat v
    dsimp only at hle
    exact mem_keys_arrayEntries.mpr ⟨j, rfl, hj, by omega⟩
  · rcases keys_absorb h with hitem | hentry
    · rw [arrayEntries_push, List.map_append, List.mem_append] at hitem
      rcases hitem with hitem | hlast
      · exact .inr (hold (.inl hitem))
      · exact .inl (List.mem_singleton.mp hlast)
    · exact .inr (hold (.inr hentry))
  · rw [places, List.map_append, List.mem_append] at h
    rcases h with hitem | hentry
    · exact .inr (hold (.inl hitem))
    · obtain ⟨e, he, rfl⟩ := List.mem_map.mp hentry
      rcases mem_storeEntry he with rfl | he
      · exact .inl rfl
      · exact .inr (hold (.inr (List.mem_map_of_mem he)))

/-- A key without a place has none after a write that leaves no value under it. -/
theorem Parted.notMem_set_of_get (ht : t.Parted) (hk : k ∉ t.places.map (·.1))
    (hnil : ((t.set key v).get k).isNil = true) : k ∉ (t.set key v).places.map (·.1) := by
  intro hmem
  rcases keys_set hmem with rfl | hold
  · -- the write was one of nil, which gives no place to a key that has none
    rw [(ht.layered.set k v).2, if_pos rfl] at hnil
    exact ht.notMem_set (.inl hnil) hk hmem
  · exact hk hold

end Table

namespace Heap

variable {β : Type} {h h' : Heap β} {slot : Nat}

/-- What a step does to the array and the entries of the table in a slot: nothing, one write, or it leaves
    a new table there. -/
def Writes (slot : Nat) (h h' : Heap β) : Prop :=
  ((h'.table slot).array = (h.table slot).array ∧ (h'.table slot).entries = (h.table slot).entries) ∨
  (∃ key v, h'.table slot = (h.table slot).set key v) ∨
  (h'.table slot).array = #[] ∧ (h'.table slot).entries = []

theorem writes_of_eq (heq : h'.tables = h.tables) : h.Writes slot h' := by
  left
  rw [table, table, heq]
  exact ⟨rfl, rfl⟩

theorem Change.writes (hc : h.Change h') (hs : h.Sound) : h.Writes slot h' := by
  cases hc with
  | newTable =>
      have hget : h.newTable.2.table slot = if slot = h.newTable.1 then {} else h.table slot := by
        change ((h.tables.insert {}).2.get? slot).getD {} = _
        rw [Arena.get?_insert hs.tables, apply_ite (fun o : Option Table => o.getD {})]
        rfl
      by_cases hslot : slot = h.newTable.1
      · rw [if_pos hslot] at hget
        right; right
        rw [hget]
        exact ⟨rfl, rfl⟩
      · rw [if_neg hslot] at hget
        left
        rw [hget]
        exact ⟨rfl, rfl⟩
  | entry s key v =>
      have hget : (h.modifyTable s fun t => t.set key v).tables.get? slot =
          if slot = s then (h.tables.get? slot).map fun t => t.set key v else h.tables.get? slot :=
        Arena.get?_modify
      by_cases hslot : slot = s
      · rw [if_pos hslot] at hget
        cases ht : h.tables.get? slot with
        | none =>
            right; right
            rw [table, hget, ht]
            exact ⟨rfl, rfl⟩
        | some t =>
            right; left
            rw [table, hget, table, ht]
            exact ⟨key, v, rfl⟩
      · rw [if_neg hslot] at hget
        left
        rw [table, hget, table]
        exact ⟨rfl, rfl⟩
  | tableMeta s metatable =>
      have hget : (h.modifyTable s fun t => { t with metatable }).tables.get? slot =
          if slot = s then (h.tables.get? slot).map fun t => { t with metatable } else h.tables.get? slot :=
        Arena.get?_modify
      left
      rw [table, hget, table]
      split
      · cases h.tables.get? slot <;> exact ⟨rfl, rfl⟩
      · exact ⟨rfl, rfl⟩
  | newFunction | newUserdata | newBoxed | userMeta | userValue | upvalue | allocate | write =>
      exact writes_of_eq rfl

theorem sweep_writes : h.Writes slot h.sweep.2 := by
  have hget : h.sweep.2.tables.get? slot =
      if Arena.kept h.marking.marks.tables slot then h.tables.get? slot else none := Arena.get?_sweep
  by_cases hkept : Arena.kept h.marking.marks.tables slot
  · rw [if_pos hkept] at hget
    left
    rw [table, hget, table]
    exact ⟨rfl, rfl⟩
  · rw [if_neg hkept] at hget
    right; right
    rw [table, hget]
    exact ⟨rfl, rfl⟩

end Heap

namespace Machine

variable {m m' : Machine} {slot : Nat} {key : Key} {k : Value} {i : StackIndex} {s : Array Value}

/-- Every step writes at most one entry of a table. -/
theorem Move.writes (h : Move m m') (hm : m.heap.Sound) : m.heap.Writes slot m'.heap := by
  cases h with
  | change h =>
      cases h with
      | heap h hc => exact hc.writes hm
      | stack | intern | host | cache | native => exact Heap.writes_of_eq rfl
      | constructed => exact Heap.writes_of_eq (by rw [heap_note])
  | service h => exact Heap.writes_of_eq (by rw [h.heap])
  | cycle =>
      obtain ⟨marking, hmarked⟩ := m.marked_eq
      have hwrites : m.marked.Writes slot m.marked.sweep.2 := Heap.sweep_writes
      rw [hmarked] at hwrites
      rw [cycle_heap, hmarked]
      exact hwrites
  | shut => exact Heap.writes_of_eq (by rw [shut_heap]; rfl)
  | turn slot =>
      obtain ⟨events, heq⟩ := turned_eq m slot
      exact Heap.writes_of_eq (by rw [heq]; rfl)
  | enter | leave | protect | unprotect => exact Heap.writes_of_eq rfl

/-- A machine where the table in a slot was empty, as a new table is, and since then no step left a value
    under a key. -/
inductive Unstored (slot : Nat) (key : Key) : Machine → Prop where
  | empty {m : Machine} : m.Reachable → (m.heap.table slot).array = #[] →
      (m.heap.table slot).entries = [] → Unstored slot key m
  | step {m m' : Machine} : Unstored slot key m → Move m m' →
      ((m'.heap.table slot).get key).isNil = true → Unstored slot key m'

/-- Nothing was stored in a new table. -/
theorem unstored_newTable (hm : m.Reachable) (key : Key) :
    Unstored m.heap.newTable.1 key { m with heap := m.heap.newTable.2 } := by
  have hmove : Move m { m with heap := m.heap.newTable.2 } := .change (.heap _ .newTable)
  have htable : m.heap.newTable.2.table m.heap.newTable.1 = {} := by
    have hget := Arena.get?_insert (x := ({} : Table)) (s := m.heap.newTable.1) hm.heap_sound.tables
    rw [if_pos (by rfl)] at hget
    exact congrArg (·.getD {}) hget
  refine .empty (hm.moves (.single hmove)) ?_ ?_
  · exact congrArg Table.array htable
  · exact congrArg Table.entries htable

theorem Unstored.reachable (h : Unstored slot key m) : m.Reachable := by
  induction h with
  | empty hm => exact hm
  | step _ hmove _ ih => exact ih.moves (.single hmove)

/-- A key under which nothing was stored has no place, and the table's array and entries are apart. -/
theorem Unstored.notMem (h : Unstored slot key m) :
    (m.heap.table slot).Parted ∧ key ∉ (m.heap.table slot).places.map (·.1) := by
  have hempty : ∀ {t : Table}, t.array = #[] → t.entries = [] →
      t.Parted ∧ key ∉ t.places.map (·.1) := by
    intro t harray hentries
    refine ⟨⟨by simp [hentries], by simp [hentries], ?_⟩, by simp [Table.places, harray, hentries,
      Table.arrayEntries]⟩
    rw [harray]
    exact Table.parted_empty.trimmed
  induction h with
  | empty _ harray hentries => exact hempty harray hentries
  | @step m m' hbefore hmove hnil ih =>
      obtain ⟨hparted, hkey⟩ := ih
      have hwrites : m.heap.Writes slot m'.heap := hmove.writes hbefore.reachable.heap_sound
      rcases hwrites with ⟨harray, hentries⟩ | ⟨written, v, hset⟩ | ⟨harray, hentries⟩
      · refine ⟨⟨hentries ▸ hparted.nodup, harray ▸ hentries ▸ hparted.outside,
          harray ▸ hparted.trimmed⟩, ?_⟩
        rwa [Table.places, harray, hentries]
      · rw [hset] at hnil ⊢
        exact ⟨hparted.set written v, hparted.notMem_set_of_get hkey hnil⟩
      · exact hempty harray hentries

/-- The only values without a key are nil and NaN. -/
theorem key?_eq_none (h : m.heap.key? k = none) : k = .nil ∨ ∃ d, k = .float d ∧ d.isNaN = true := by
  unfold Heap.key? at h
  split at h
  · cases h
  · cases k with
    | nil => exact .inl rfl
    | float d =>
        refine .inr ⟨d, rfl, ?_⟩
        by_contra hnan
        rw [Key.ofValue?, if_neg hnan] at h
        split at h <;> cases h
    | bool | int | string | light | object | foreign => cases h

/-- NaN is no key, and a traversal goes on from it as it does from nil: from the start. -/
theorem next_nan (hstack : m.stack = s.push k) (hbase : m.base ≤ s.size)
    (hindex : m.value (m.absolute i) = .table slot) (hkey : m.heap.key? k = none) :
    Op.next i m =
      match Table.firstLive (m.heap.table slot).places with
      | some (key, v) =>
          .ok true (((({ m with stack := s } : Machine).keyValue key).2.push
            (({ m with stack := s } : Machine).keyValue key).1).push v)
      | none => .ok false { m with stack := s } := by
  have hstart : m.startOf k = none := by
    rw [startOf, hkey, ite_self]
  rw [next_eq hstack hbase hindex, hstart, Table.next_none]
  cases Table.firstLive (m.heap.table slot).places <;> rfl

/-- `next` refuses a key under which nothing was ever stored in the table: it takes the key and pushes
    nothing. The key is neither nil nor NaN, which start a traversal; that nothing was stored under an
    object also says so of the objects that had its slot before. -/
theorem next_refused (hstack : m.stack = s.push k) (hbase : m.base ≤ s.size)
    (hindex : m.value (m.absolute i) = .table slot) (hnil : k ≠ .nil)
    (hnan : ∀ d, k = .float d → d.isNaN = false)
    (hnever : ∀ key, m.heap.key? k = some key → Unstored slot key m) :
    Op.next i m = .error (.ofFault .invalidTraversalKey) { m with stack := s } := by
  cases hkey : m.heap.key? k with
  | none =>
      rcases key?_eq_none hkey with rfl | ⟨d, rfl, hd⟩
      · exact absurd rfl hnil
      · exact absurd (hnan d rfl) (by simp [hd])
  | some key =>
      have hstart : m.startOf k = some key := by
        have hvalue : k.isNil = false := Bool.eq_false_iff.mpr fun h => hnil (Value.eq_nil h)
        rw [startOf, hvalue, hkey]
        rfl
      have hnext := (m.heap.table slot).next_eq key
      rw [if_neg (hnever key hkey).notMem.2] at hnext
      rw [next_eq hstack hbase hindex, hstart, hnext]

/-- The registry of `sparse` has values under 1 and under a large integer, and none under 2. -/
theorem sparse_next_refused : Op.next .registry (sparse.push (.int 2)) =
    .error (.ofFault .invalidTraversalKey) sparse := by
  have hfirst : Unstored 0 (.integer 2) ((create {}).setEntry 0 (.integer 1) (.int 5)) :=
    .step (.empty (reachable_create _) rfl rfl) (.change (.heap _ (.entry _ _ _))) (by decide +kernel)
  have hsparse : Unstored 0 (.integer 2) sparse :=
    .step hfirst (.change (.heap _ (.entry _ _ _))) (by decide +kernel)
  have hpush : Unstored 0 (.integer 2) (sparse.push (.int 2)) :=
    .step hsparse (.change (.stack _ (Nat.zero_le _) fun _ hi => absurd hi (Nat.not_lt_zero _)))
      (by decide +kernel)
  refine next_refused (s := #[]) rfl (Nat.zero_le _) rfl ?_ ?_ ?_
  · exact Value.noConfusion
  · exact fun d hd => Value.noConfusion hd
  · intro key hkey
    obtain rfl := Option.some.inj hkey
    exact hpush

end Machine

end ScriptHost
