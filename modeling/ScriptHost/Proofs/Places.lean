import Mathlib.Data.List.Nodup
import Mathlib.Data.List.TakeWhile
import Mathlib.Tactic.Common
import ScriptHost.Proofs.FiniteMap

/-! # Places

A table keeps its values in places, those of the array first and then those of the entries, each under a
key of its own. From a key that has a place a traversal goes on to the next value behind it. A value that
is stored over another, and nil in general, changes what is in a place and leaves all places in their
order; only when the last value of the array goes, the nils at the end of the array lose their places.
-/

namespace ScriptHost

namespace Table

variable {t : Table} {array : Array Value} {l l' entries : List (Key × Value)} {e : Key × Value}
  {key k : Key} {v : Value} {n : Nat} {position : Option Key}

/-! ## Places -/

/-- All that a table keeps, nils too, in traversal order. -/
def places (t : Table) : List (Key × Value) := arrayEntries t.array ++ t.entries

/-- The places that hold a value. -/
def live (l : List (Key × Value)) : List (Key × Value) := l.filter (!·.2.isNil)

/-- The keys that have a value. -/
def liveKeys (l : List (Key × Value)) : List Key := (live l).map (·.1)

/-- The places behind that of a key; all of them behind none. -/
def behind (l : List (Key × Value)) : Option Key → List (Key × Value)
  | none => l
  | some key => (l.dropWhile (·.1 ≠ key)).tail

/-- The places with another value under a key. -/
def overwritten (key : Key) (v : Value) (l : List (Key × Value)) : List (Key × Value) :=
  l.map fun e => if e.1 = key then (key, v) else e

theorem live_places : live t.places = t.toList := rfl

theorem liveKeys_places : liveKeys t.places = t.toList.map (·.1) := rfl

theorem mem_live : e ∈ live l ↔ e ∈ l ∧ e.2.isNil = false := by simp [live]

theorem live_eq_nil : live l = [] ↔ ∀ e ∈ l, e.2.isNil = true := by simp [live]

@[simp] theorem live_append : live (l ++ l') = live l ++ live l' := List.filter_append ..

@[simp] theorem liveKeys_append : liveKeys (l ++ l') = liveKeys l ++ liveKeys l' := by
  simp [liveKeys]

theorem liveKeys_eq_nil (h : ∀ e ∈ l, e.2.isNil = true) : liveKeys l = [] := by
  rw [liveKeys, live_eq_nil.mpr h, List.map_nil]

theorem liveKeys_cons :
    liveKeys (e :: l) = if e.2.isNil then liveKeys l else e.1 :: liveKeys l := by
  cases h : e.2.isNil <;> simp [liveKeys, live, h]

theorem mem_liveKeys : k ∈ liveKeys l ↔ ∃ v, (k, v) ∈ l ∧ v.isNil = false := by
  simp [liveKeys, mem_live]

theorem sublist_liveKeys (l : List (Key × Value)) : (liveKeys l).Sublist (l.map (·.1)) :=
  (List.filter_sublist (l := l)).map _

@[simp] theorem length_arrayEntries (array : Array Value) : (arrayEntries array).length = array.size := by
  simp [arrayEntries]

theorem getElem?_arrayEntries (array : Array Value) (n : Nat) :
    (arrayEntries array)[n]? = array[n]?.map fun v => (.integer (n + 1 : Nat), v) := by
  simp [arrayEntries, List.getElem?_zipIdx]
  rfl

theorem drop_arrayEntries (h : n < array.size) : (arrayEntries array).drop n =
    (.integer (n + 1 : Nat), array[n]) :: (arrayEntries array).drop (n + 1) := by
  have hlt : n < (arrayEntries array).length := by simpa using h
  have hget := getElem?_arrayEntries array n
  rw [List.getElem?_eq_getElem hlt, Array.getElem?_eq_getElem h] at hget
  rw [List.drop_eq_getElem_cons hlt, Option.some.inj hget]

theorem mem_arrayEntries {v : Value} :
    (k, v) ∈ arrayEntries array ↔ ∃ n : Nat, k = .integer (n + 1 : Nat) ∧ array[n]? = some v := by
  rw [List.mem_iff_getElem?]
  simp only [getElem?_arrayEntries, Option.map_eq_some_iff, Prod.mk.injEq]
  grind

theorem mem_keys_arrayEntries : k ∈ (arrayEntries array).map (·.1) ↔
    ∃ i : Int, k = .integer i ∧ 1 ≤ i ∧ i ≤ array.size := by
  simp only [List.mem_map, Prod.exists, mem_arrayEntries, exists_and_right, exists_eq_right]
  constructor
  · rintro ⟨v, n, rfl, hn⟩
    obtain ⟨hlt, -⟩ := Array.getElem?_eq_some_iff.mp hn
    exact ⟨_, rfl, by omega, by omega⟩
  · rintro ⟨i, rfl, h, hle⟩
    have hlt : (i - 1).toNat < array.size := by omega
    refine ⟨array[(i - 1).toNat], (i - 1).toNat, ?_, Array.getElem?_eq_getElem hlt⟩
    congr 1
    omega

theorem nodup_arrayEntries (array : Array Value) : ((arrayEntries array).map (·.1)).Nodup := by
  rw [List.nodup_iff_getElem?_ne_getElem?]
  intro i j hij hj
  simp only [List.length_map, length_arrayEntries] at hj
  simp only [List.getElem?_map, getElem?_arrayEntries, Array.getElem?_eq_getElem hj,
    Array.getElem?_eq_getElem (Nat.lt_trans hij hj), Option.map_some, ne_eq, Option.some.injEq,
    Key.integer.injEq]
  omega

/-! ## The parts of a table -/

/-- Array and entries are apart: no entry has a key of the array or the key after it, each key has one
    entry at most, and the array does not end in nil. -/
structure Parted (t : Table) : Prop where
  nodup : (t.entries.map (·.1)).Nodup
  outside : ∀ i : Int, 1 ≤ i → i ≤ t.array.size + 1 → .integer i ∉ t.entries.map (·.1)
  trimmed : Trimmed t.array

theorem parted_empty : Parted {} := ⟨List.nodup_nil, by simp, fun _ h => by cases h⟩

theorem Parted.layered (ht : t.Parted) : t.Layered where
  nodup := ht.nodup
  shadowed i h hle := by
    have hnone := lookup_eq_none.mpr (ht.outside i h hle)
    simp [entryValue, hnone]
  trimmed := ht.trimmed

theorem Parted.nodup_places (ht : t.Parted) : (t.places.map (·.1)).Nodup := by
  rw [places, List.map_append, List.nodup_append]
  refine ⟨nodup_arrayEntries _, ht.nodup, ?_⟩
  intro k hk k' hk' heq
  obtain ⟨i, rfl, h, hle⟩ := mem_keys_arrayEntries.mp hk
  exact ht.outside i h (by omega) (heq ▸ hk')

/-- What a place holds is read under its key. -/
theorem Parted.get_of_mem (ht : t.Parted) (h : (k, v) ∈ t.places) : t.get k = v := by
  rcases List.mem_append.mp h with h | h
  · obtain ⟨n, rfl, hn⟩ := mem_arrayEntries.mp h
    obtain ⟨hlt, -⟩ := Array.getElem?_eq_some_iff.mp hn
    have hindex : ((n + 1 : Nat) - 1 : Int).toNat = n := by omega
    have hget := getInt_array (t := t) (i := (n + 1 : Nat)) (by omega) (by omega)
    rwa [hindex, hn, Option.getD_some] at hget
  · rw [get_entry, entryValue, List.lookup_eq_some_iff.mpr, Option.getD_some]
    · obtain ⟨before, later, heq⟩ := List.append_of_mem h
      refine ⟨before, later, heq, fun e he => ?_⟩
      have hnodup := ht.nodup
      simp only [heq, List.map_append, List.map_cons, List.nodup_append] at hnodup
      exact bne_iff_ne.mpr fun hk => hnodup.2.2 _ (List.mem_map_of_mem he) _ List.mem_cons_self hk.symm
    · rintro i rfl ⟨hi, hle⟩
      exact ht.outside i hi (by omega) (List.mem_map_of_mem (f := (·.1)) h)

/-- The keys of the places that hold a value are those that read as one. -/
theorem Parted.mem_liveKeys (ht : t.Parted) : k ∈ liveKeys t.places ↔ (t.get k).isNil = false := by
  rw [Table.mem_liveKeys]
  constructor
  · rintro ⟨v, hmem, hv⟩
    rwa [ht.get_of_mem hmem]
  · intro h
    refine ⟨_, ?_, h⟩
    by_cases hk : ∃ i : Int, k = .integer i ∧ 1 ≤ i ∧ i ≤ t.array.size
    · obtain ⟨⟨k', v⟩, hmem, rfl⟩ := List.mem_map.mp (mem_keys_arrayEntries.mpr hk)
      have hplace : (k', v) ∈ t.places := List.mem_append_left _ hmem
      rwa [ht.get_of_mem hplace]
    · have hentry : t.get k = entryValue t.entries k := get_entry fun i hi h => hk ⟨i, hi, h⟩
      rw [hentry] at h ⊢
      exact List.mem_append_right _ (mem_of_entryValue h)

theorem Parted.nodup_liveKeys (ht : t.Parted) : (liveKeys t.places).Nodup :=
  ht.nodup_places.sublist (sublist_liveKeys _)

/-! ## The next place -/

theorem dropWhile_of_notMem (h : key ∉ l.map (·.1)) : l.dropWhile (·.1 ≠ key) = [] := by
  rw [List.dropWhile_eq_nil_iff]
  intro e he
  simpa using fun heq : e.1 = key => h (heq ▸ List.mem_map_of_mem he)

theorem dropWhile_of_mem (h : key ∈ l.map (·.1)) : l.dropWhile (·.1 ≠ key) ≠ [] := by
  obtain ⟨e, he, rfl⟩ := List.mem_map.mp h
  intro hnil
  simpa using List.dropWhile_eq_nil_iff.mp hnil e he

theorem behind_append_left (h : key ∈ l.map (·.1)) :
    behind (l ++ l') (some key) = behind l (some key) ++ l' := by
  have hne := dropWhile_of_mem h
  simp only [behind, List.dropWhile_append, List.isEmpty_iff, if_neg hne]
  exact List.tail_append_of_ne_nil hne

theorem behind_append_right (h : key ∉ l.map (·.1)) :
    behind (l ++ l') (some key) = behind l' (some key) := by
  simp only [behind, List.dropWhile_append, dropWhile_of_notMem h, List.isEmpty_nil, if_true]

theorem behind_suffix (l : List (Key × Value)) (position : Option Key) : behind l position <:+ l := by
  cases position with
  | none => exact List.suffix_refl l
  | some key => exact (List.tail_suffix _).trans (List.dropWhile_suffix _)

theorem behind_cons_self : behind (e :: l) (some e.1) = l := by simp [behind]

/-- The values after the first one behind a position are those behind the key of that one. -/
theorem live_behind_firstLive (hl : (l.map (·.1)).Nodup)
    (h : firstLive (behind l position) = some e) :
    e ∈ l ∧ live (behind l position) = e :: live (behind l (some e.1)) := by
  obtain ⟨before, hbefore⟩ := behind_suffix l position
  obtain ⟨hlive, nils, later, hsplit, hnils⟩ := List.find?_eq_some_iff_append.mp h
  have hall : l = (before ++ nils) ++ e :: later := by rw [← hbefore, hsplit, List.append_assoc]
  have hnot : e.1 ∉ (before ++ nils).map (·.1) := by
    rw [hall, List.map_append, List.nodup_append] at hl
    exact fun hmem => hl.2.2 _ hmem _ List.mem_cons_self rfl
  have hlater : behind l (some e.1) = later := by
    rw [hall, behind_append_right hnot, behind_cons_self]
  refine ⟨by simp [hall], ?_⟩
  rw [hlater, hsplit, live_append, live_eq_nil.mpr (by simpa using hnils)]
  simp only [List.nil_append, live, List.filter_cons, hlive, if_true]

theorem nextFrom_eq (t : Table) (n : Nat) :
    t.nextFrom n = firstLive ((arrayEntries t.array).drop n ++ t.entries) := by
  unfold nextFrom
  induction n using liveIndex?.induct t.array with
  | case1 n hlt hnil ih =>
      rw [liveIndex?, dif_pos hlt, if_pos hnil, ih, drop_arrayEntries hlt]
      simp [firstLive, hnil]
  | case2 n hlt hvalue =>
      rw [liveIndex?, dif_pos hlt, if_neg hvalue, drop_arrayEntries hlt]
      simp [firstLive, hvalue, hlt]
  | case3 n hge =>
      rw [liveIndex?, dif_neg hge, List.drop_of_length_le (by simpa using hge)]
      rfl

theorem behind_arrayEntries {i : Int} (h : 1 ≤ i) (hle : i ≤ array.size) :
    behind (arrayEntries array) (some (.integer i)) = (arrayEntries array).drop i.toNat := by
  have hlt : (i - 1).toNat < (arrayEntries array).length := by
    simp only [length_arrayEntries]
    omega
  have hsplit := List.take_append_drop (i - 1).toNat (arrayEntries array)
  rw [List.drop_eq_getElem_cons hlt] at hsplit
  have helem : (arrayEntries array)[(i - 1).toNat].1 = .integer i := by
    have hget := getElem?_arrayEntries array (i - 1).toNat
    rw [List.getElem?_eq_getElem hlt] at hget
    obtain ⟨v, -, hv⟩ := Option.map_eq_some_iff.mp hget.symm
    rw [← hv, Key.integer.injEq]
    omega
  have hnot : Key.integer i ∉ ((arrayEntries array).take (i - 1).toNat).map (·.1) := by
    have hnodup := nodup_arrayEntries array
    rw [← hsplit, List.map_append, List.nodup_append] at hnodup
    exact fun hmem => hnodup.2.2 _ hmem _ (by rw [List.map_cons]; exact List.mem_cons_self) helem.symm
  have hindex : (i - 1).toNat + 1 = i.toNat := by omega
  rw [← hsplit, behind_append_right hnot, ← helem, behind_cons_self, hsplit, hindex]

/-- A key outside the array is looked up among the entries. -/
theorem next_entry (h : key ∉ (arrayEntries t.array).map (·.1)) : t.next (some key) =
    if key ∈ t.entries.map (·.1) then some (firstLive (behind t.entries (some key))) else none := by
  unfold next
  dsimp only
  split
  · rename_i n hn
    cases key with
    | integer i =>
        obtain ⟨hi, -⟩ := Option.ite_none_right_eq_some.mp hn
        exact absurd (mem_keys_arrayEntries.mpr ⟨i, rfl, hi⟩) h
    | string | float | object | foreign | boolean | light => cases hn
  · split
    · rename_i hnil
      rw [if_neg fun hmem => dropWhile_of_mem hmem hnil]
    · rename_i e rest hrest
      have hmem : key ∈ t.entries.map (·.1) := by
        by_contra hnot
        rw [dropWhile_of_notMem hnot] at hrest
        cases hrest
      rw [if_pos hmem, behind, hrest, List.tail_cons]

/-- From a key that has a place a traversal goes on to the next value behind it; other keys are
    refused. -/
theorem next_eq (t : Table) (key : Key) : t.next (some key) =
    if key ∈ t.places.map (·.1) then some (firstLive (behind t.places (some key))) else none := by
  by_cases hitem : key ∈ (arrayEntries t.array).map (·.1)
  · rw [if_pos (by simp only [places, List.map_append, List.mem_append, hitem, true_or]), places,
      behind_append_left hitem]
    obtain ⟨i, rfl, h, hle⟩ := mem_keys_arrayEntries.mp hitem
    have hindex : i.toNat = (i - 1).toNat + 1 := by omega
    rw [behind_arrayEntries h hle, hindex, ← nextFrom_eq]
    simp [next, arrayIndex?, h, hle]
  · rw [next_entry hitem, places, behind_append_right hitem]
    simp only [List.map_append, List.mem_append, hitem, false_or]

theorem next_none (t : Table) : t.next none = some (firstLive t.places) :=
  congrArg some (nextFrom_eq t 0)

theorem next_of_placed (h : ∀ key ∈ position, key ∈ t.places.map (·.1)) :
    t.next position = some (firstLive (behind t.places position)) := by
  cases position with
  | none => exact next_none t
  | some key => rw [next_eq, if_pos (h key rfl)]

/-! ## Writing -/

@[simp] theorem keys_overwritten (key : Key) (v : Value) (l : List (Key × Value)) :
    (overwritten key v l).map (·.1) = l.map (·.1) := by
  rw [overwritten, List.map_map]
  apply List.map_congr_left
  intro e _
  by_cases he : e.1 = key <;> simp [he]

theorem overwritten_of_notMem (h : key ∉ l.map (·.1)) : overwritten key v l = l := by
  have hsame : ∀ e ∈ l, (if e.1 = key then (key, v) else e) = e := fun e he =>
    if_neg fun heq : e.1 = key => h (heq ▸ List.mem_map_of_mem he)
  rw [overwritten, List.map_congr_left hsame, List.map_id']

theorem overwriteValue?_eq (h : (entries.map (·.1)).Nodup) : overwriteValue? key v entries =
    if key ∈ entries.map (·.1) then some (overwritten key v entries) else none := by
  induction entries with
  | nil => rfl
  | cons e rest ih =>
      obtain ⟨k, w⟩ := e
      obtain ⟨hk, hrest⟩ := List.nodup_cons.mp h
      by_cases hkey : k = key
      · subst hkey
        have hsame : overwritten k v rest = rest := overwritten_of_notMem hk
        simpa [overwriteValue?, overwritten] using hsame.symm
      · rw [overwriteValue?, if_neg hkey, ih hrest]
        by_cases hmem : key ∈ rest.map (·.1) <;>
          simp only [hmem, List.map_cons, List.mem_cons, Ne.symm hkey, or_true, or_false, if_true,
            if_false, Option.map_some, Option.map_none, overwritten, hkey]

theorem storeEntry_of_mem (h : (entries.map (·.1)).Nodup) (hmem : key ∈ entries.map (·.1)) :
    storeEntry entries key v = overwritten key v entries := by
  simp only [storeEntry, overwriteValue?_eq h, if_pos hmem]

theorem storeEntry_of_notMem (h : (entries.map (·.1)).Nodup) (hmem : key ∉ entries.map (·.1)) :
    storeEntry entries key v = if v.isNil then entries else entries ++ [(key, v)] := by
  simp only [storeEntry, overwriteValue?_eq h, if_neg hmem]

theorem notMem_eraseP (h : (entries.map (·.1)).Nodup) :
    key ∉ (entries.eraseP (·.1 == key)).map (·.1) := by
  have herase : (entries.eraseP (·.1 == key)).map (·.1) = (entries.map (·.1)).erase key := by
    rw [List.erase_eq_eraseP', List.eraseP_map]
    rfl
  rw [herase]
  exact h.not_mem_erase

/-- Moving entries into the array leaves none behind that has a key of the array or the key after it. -/
theorem outside_absorb {fuel : Nat} (hnodup : (entries.map (·.1)).Nodup)
    (h : ∀ i : Int, 1 ≤ i → i ≤ array.size → .integer i ∉ entries.map (·.1))
    (hfuel : entries.length ≤ fuel) : ∀ i : Int, 1 ≤ i → i ≤ (absorb array entries fuel).array.size + 1 →
      .integer i ∉ (absorb array entries fuel).entries.map (·.1) := by
  induction fuel generalizing array entries with
  | zero =>
      obtain rfl := List.eq_nil_of_length_eq_zero (Nat.le_zero.mp hfuel)
      simp [absorb]
  | succ fuel ih =>
      rw [absorb]
      dsimp only
      cases hlookup : entries.lookup (.integer (array.size + 1)) with
      | none =>
          intro i hi hle
          rcases Int.lt_or_eq_of_le hle with hlt | rfl
          · exact h i hi (by dsimp only at hlt; omega)
          · exact lookup_eq_none.mp hlookup
      | some w =>
          dsimp only
          have hrest : ∀ i : Int, 1 ≤ i → i ≤ array.size + 1 →
              .integer i ∉ (entries.eraseP (·.1 == Key.integer (array.size + 1))).map (·.1) := by
            intro i hi hle hmem
            rcases Int.lt_or_eq_of_le hle with hlt | rfl
            · exact h i hi (by omega) ((List.eraseP_sublist.map _).mem hmem)
            · exact notMem_eraseP hnodup hmem
          split
          · exact hrest
          · have hlength : (entries.eraseP (·.1 == Key.integer (array.size + 1))).length =
                entries.length - 1 :=
              List.length_eraseP_of_mem (mem_of_lookup hlookup) (beq_self_eq_true _)
            apply ih (nodup_eraseP hnodup) _ (by omega)
            simpa [Array.size_push] using hrest

/-- Every write keeps the parts of a table apart. -/
theorem Parted.set (ht : t.Parted) (key : Key) (v : Value) : (t.set key v).Parted := by
  obtain ⟨hlayered, -⟩ := ht.layered.set key v
  refine ⟨hlayered.nodup, ?_, hlayered.trimmed⟩
  rcases set_cases t key v with ⟨i, -, -, -, heq⟩ | ⟨-, -, heq⟩ | ⟨hitem, hnext, heq⟩ <;> rw [heq]
  · intro j hj hle
    apply ht.outside j hj
    have hsize := setItem_size_le t.array (i - 1).toNat v
    dsimp only at hle
    omega
  · exact outside_absorb ht.nodup (by simpa using ht.outside) (Nat.le_refl _)
  · intro j hj hle
    dsimp only at hle
    have hout := ht.outside j hj hle
    by_cases hmem : key ∈ t.entries.map (·.1)
    · simpa [storeEntry_of_mem ht.nodup hmem] using hout
    · rw [storeEntry_of_notMem ht.nodup hmem]
      split
      · exact hout
      · rename_i hv
        have hkey : Key.integer j ≠ key := by
          intro hj'
          rcases Int.lt_or_eq_of_le hle with hlt | hlast
          · exact hitem j hj'.symm ⟨hj, by omega⟩
          · exact hv (hnext (hj'.symm.trans (congrArg Key.integer hlast)))
        simpa [hkey] using hout

theorem parted_storeAll (writes : List (Access × Value)) (ht : t.Parted) :
    (storeAll writes t).Parted := by
  induction writes generalizing t with
  | nil => exact ht
  | cons first rest ih =>
      obtain ⟨a, v⟩ := first
      rw [storeAll]
      cases hkey : a.key? with
      | none =>
          obtain ⟨e, hwrite⟩ := a.write_none hkey t v
          rw [hwrite]
          exact ih ht
      | some key =>
          rw [a.write_some hkey t v]
          exact ih (ht.set key v)

/-! ## What a write does to the places -/

theorem overwritten_append : overwritten key v (l ++ l') = overwritten key v l ++ overwritten key v l' :=
  List.map_append

theorem arrayEntries_push (array : Array Value) (v : Value) : arrayEntries (array.push v) =
    arrayEntries array ++ [(.integer (array.size + 1 : Nat), v)] := by
  simp [arrayEntries, List.zipIdx_append]

theorem arrayEntries_setIfInBounds (array : Array Value) (n : Nat) (v : Value) :
    arrayEntries (array.setIfInBounds n v) = overwritten (.integer (n + 1 : Nat)) v (arrayEntries array) := by
  apply List.ext_getElem?
  intro i
  rw [overwritten, List.getElem?_map, getElem?_arrayEntries, getElem?_arrayEntries,
    Array.getElem?_setIfInBounds]
  by_cases hi : n = i
  · subst hi
    by_cases hlt : n < array.size <;> simp [hlt]
  · have hne : (i : Int) ≠ n := by omega
    cases array[i]? <;> simp [hi, hne]

/-- What is trimmed off are places that hold nil. -/
theorem arrayEntries_trim (array : Array Value) : ∃ nils, arrayEntries array = arrayEntries (trim array) ++ nils ∧
    ∀ e ∈ nils, e.2.isNil = true := by
  induction array using trim.induct with
  | case1 array h hnil ih =>
      obtain ⟨nils, heq, hnils⟩ := ih
      have hpush : array.pop.push array[array.size - 1] = array := by
        apply Array.ext
        · simp only [Array.size_push, Array.size_pop]
          omega
        · intro i _ hi
          rw [Array.getElem_push]
          split
          · simp
          · congr 1
            simp only [Array.size_pop] at *
            omega
      have hlast := arrayEntries_push array.pop array[array.size - 1]
      rw [hpush, heq, List.append_assoc] at hlast
      rw [trim, dif_pos h, if_pos hnil]
      refine ⟨_, hlast, ?_⟩
      intro e he
      rcases List.mem_append.mp he with he | he
      · exact hnils e he
      · rw [List.mem_singleton.mp he]
        exact hnil
  | case2 array h hvalue =>
      rw [trim, dif_pos h, if_neg hvalue]
      exact ⟨[], by simp⟩
  | case3 array h =>
      rw [trim, dif_neg h]
      exact ⟨[], by simp⟩

theorem trim_size_lt (h : 0 < array.size) (hnil : (array.back h).isNil = true) :
    (trim array).size < array.size := by
  rw [Array.back_eq_getElem] at hnil
  rw [trim, dif_pos h, if_pos hnil]
  have hle := trim_size_le array.pop
  rw [Array.size_pop] at hle
  omega

/-- Nil under the last key of the array takes away its place. -/
theorem Parted.notMem_set_last (ht : t.Parted) (hv : v.isNil = true) (h : 0 < t.array.size) :
    .integer t.array.size ∉ (t.set (.integer t.array.size) v).places.map (·.1) := by
  have hindex : ((t.array.size : Int) - 1).toNat = t.array.size - 1 := by omega
  have hset : t.set (.integer t.array.size) v =
      { t with array := trim (t.array.setIfInBounds (t.array.size - 1) v) } := by
    rw [set_item ⟨by omega, Int.le_refl _⟩, hindex, setItem, if_pos]
    simp only [Array.size_setIfInBounds, hv, Bool.and_true, decide_eq_true_eq]
    omega
  have hlt : (trim (t.array.setIfInBounds (t.array.size - 1) v)).size < t.array.size := by
    have hsize : (t.array.setIfInBounds (t.array.size - 1) v).size = t.array.size :=
      Array.size_setIfInBounds
    have hlast : 0 < (t.array.setIfInBounds (t.array.size - 1) v).size := by rwa [hsize]
    have hlt := trim_size_lt hlast (by simp [Array.back_eq_getElem, hv])
    rwa [hsize] at hlt
  rw [hset, places, List.map_append, List.mem_append, mem_keys_arrayEntries]
  rintro (⟨j, hj, -, hle⟩ | hmem)
  · have heq := Key.integer.inj hj
    dsimp only at hle
    omega
  · exact ht.outside _ (by omega) (by omega) hmem

/-- Nil, or a value over a value, is stored in its place. Where nil is the end of the array, the places
    that hold nil there go. -/
theorem Parted.places_set (ht : t.Parted) (h : v.isNil = true ∨ (t.get key).isNil = false) :
    (t.set key v).places = overwritten key v t.places ∨
    v.isNil = true ∧ key = .integer t.array.size ∧
      ∃ front nils, overwritten key v (arrayEntries t.array) = front ++ nils ∧
        overwritten key v t.places = front ++ nils ++ t.entries ∧
        (t.set key v).places = front ++ t.entries ∧ ∀ e ∈ nils, e.2.isNil = true := by
  rcases set_cases t key v with ⟨i, rfl, hi, hle, heq⟩ | ⟨rfl, hv, heq⟩ | ⟨hitem, hnext, heq⟩
  · have hindex : ((i - 1).toNat + 1 : Nat) = i := by omega
    have harray := arrayEntries_setIfInBounds t.array (i - 1).toNat v
    rw [hindex] at harray
    have hentries : overwritten (.integer i) v t.entries = t.entries :=
      overwritten_of_notMem (ht.outside i hi (by omega))
    have hplaces : overwritten (.integer i) v t.places =
        arrayEntries (t.array.setIfInBounds (i - 1).toNat v) ++ t.entries := by
      rw [places, overwritten_append, hentries, harray]
    rw [heq]
    by_cases hlast : (i - 1).toNat + 1 = t.array.size ∧ v.isNil = true
    · right
      have hset : setItem t.array (i - 1).toNat v = trim (t.array.setIfInBounds (i - 1).toNat v) :=
        if_pos (by simpa [hlast.2] using hlast.1)
      obtain ⟨nils, hsplit, hnils⟩ := arrayEntries_trim (t.array.setIfInBounds (i - 1).toNat v)
      exact ⟨hlast.2, by rw [← hlast.1, hindex], _, nils, harray ▸ hsplit, hsplit ▸ hplaces,
        by rw [places, hset], hnils⟩
    · left
      have hset : setItem t.array (i - 1).toNat v = t.array.setIfInBounds (i - 1).toNat v :=
        if_neg (by simpa using hlast)
      rw [hplaces, places, hset]
  · have hnil : t.get (.integer (t.array.size + 1)) = .nil := by
      rw [get_entry fun i hi h => by cases hi; omega]
      exact ht.layered.shadowed _ (by omega) (Int.le_refl _)
    rw [hv, hnil] at h
    exact h.elim Bool.noConfusion Bool.noConfusion
  · left
    have hnot : key ∉ (arrayEntries t.array).map (·.1) := fun hmem =>
      let ⟨i, hi, hle⟩ := mem_keys_arrayEntries.mp hmem
      hitem i hi hle
    rw [heq, places, places, overwritten_append, overwritten_of_notMem hnot]
    dsimp only
    congr 1
    by_cases hmem : key ∈ t.entries.map (·.1)
    · exact storeEntry_of_mem ht.nodup hmem
    · have hv : v.isNil = true := by
        apply h.resolve_right
        rw [get_entry hitem, entryValue, lookup_eq_none.mpr hmem]
        exact Bool.noConfusion
      rw [storeEntry_of_notMem ht.nodup hmem, if_pos hv, overwritten_of_notMem hmem]

/-- The array ends in a value, which lies behind the other keys of the array. -/
theorem Parted.last_behind (ht : t.Parted) {i : Int} (h : 1 ≤ i) (hlt : i < t.array.size) :
    .integer t.array.size ∈ liveKeys (behind t.places (some (.integer i))) := by
  have hmem : Key.integer i ∈ (arrayEntries t.array).map (·.1) :=
    mem_keys_arrayEntries.mpr ⟨i, rfl, h, by omega⟩
  rw [places, behind_append_left hmem, behind_arrayEntries h (by omega), Table.mem_liveKeys]
  have hlast : t.array[t.array.size - 1]? = some t.array[t.array.size - 1] :=
    Array.getElem?_eq_getElem (by omega)
  have hget : (arrayEntries t.array)[t.array.size - 1]? =
      some (.integer t.array.size, t.array[t.array.size - 1]) := by
    rw [getElem?_arrayEntries, hlast, Option.map_some]
    congr 3
    omega
  refine ⟨t.array[t.array.size - 1], List.mem_append_left _ ?_, ht.trimmed _ ?_⟩
  · apply List.mem_of_getElem? (i := t.array.size - 1 - i.toNat)
    rw [List.getElem?_drop, ← hget]
    congr 1
    omega
  · rw [Array.back?_eq_getElem?, hlast]

/-! ## Places behind a key after a write -/

theorem behind_overwritten (l : List (Key × Value)) (position : Option Key) :
    behind (overwritten key v l) position = overwritten key v (behind l position) := by
  cases position with
  | none => rfl
  | some k =>
      have hkey : ((fun e : Key × Value => decide (e.1 ≠ k)) ∘ fun e => if e.1 = key then (key, v) else e) =
          fun e => decide (e.1 ≠ k) := by
        funext e
        by_cases he : e.1 = key <;> simp [he]
      rw [behind, behind, overwritten, List.dropWhile_map, hkey, overwritten, List.map_tail]

/-- Values stay values where one is stored over another, or nil under a key that has none. -/
theorem liveKeys_overwritten (h : ∀ e ∈ l, e.1 = key → e.2.isNil = v.isNil) :
    liveKeys (overwritten key v l) = liveKeys l := by
  induction l with
  | nil => rfl
  | cons e rest ih =>
      have hrest := ih fun e he => h e (List.mem_cons_of_mem _ he)
      change liveKeys ((if e.1 = key then (key, v) else e) :: overwritten key v rest) = _
      rw [liveKeys_cons, liveKeys_cons, hrest]
      by_cases hkey : e.1 = key
      · rw [if_pos hkey, h e List.mem_cons_self hkey, hkey]
      · rw [if_neg hkey]

/-- Places that hold nil may go if the position is not among them. -/
theorem liveKeys_behind_dropped {front nils : List (Key × Value)} (hnils : ∀ e ∈ nils, e.2.isNil = true)
    (hnot : ∀ k ∈ position, k ∉ nils.map (·.1)) :
    liveKeys (behind (front ++ nils ++ l) position) = liveKeys (behind (front ++ l) position) := by
  have hnone := liveKeys_eq_nil hnils
  cases position with
  | none => simp [behind, hnone]
  | some k =>
      have hk := hnot k rfl
      by_cases hfront : k ∈ front.map (·.1)
      · rw [List.append_assoc, behind_append_left hfront, behind_append_left hfront]
        simp [hnone]
      · rw [behind_append_right (by simpa [List.map_append] using not_or.mpr ⟨hfront, hk⟩),
          behind_append_right hfront]

/-- What is permitted takes no place from a position, unless it is nil under the position itself at the
    end of the array, and leaves the values behind it. -/
theorem Parted.behind_set (ht : t.Parted) (h : v.isNil = true ∨ (t.get key).isNil = false)
    (hplaced : ∀ k ∈ position, k ∈ t.places.map (·.1))
    (hvalue : v.isNil = true → key ∉ liveKeys (behind t.places position))
    (hend : ¬ (v.isNil = true ∧ position = some key ∧ key = .integer t.array.size ∧ 0 < t.array.size)) :
    (∀ k ∈ position, k ∈ (t.set key v).places.map (·.1)) ∧
      liveKeys (behind (t.set key v).places position) = liveKeys (behind t.places position) := by
  have hover : liveKeys (behind (overwritten key v t.places) position) =
      liveKeys (behind t.places position) := by
    rw [behind_overwritten]
    apply liveKeys_overwritten
    rintro ⟨k, w⟩ he rfl
    have hget := ht.get_of_mem ((behind_suffix _ _).mem he)
    cases hnil : v.isNil with
    | true =>
        by_contra hlive
        exact hvalue hnil (Table.mem_liveKeys.mpr ⟨w, he, Bool.eq_false_iff.mpr hlive⟩)
    | false =>
        rw [hnil, hget] at h
        exact h.resolve_left Bool.noConfusion
  rcases ht.places_set h with hplaces | ⟨hnil, hlast, front, nils, harray, hall, hplaces, hnils⟩
  · rw [hplaces, keys_overwritten]
    exact ⟨hplaced, hover⟩
  · have hnot : ∀ k ∈ position, k ∉ nils.map (·.1) := by
      intro k hk hmem
      have hitem : k ∈ (overwritten key v (arrayEntries t.array)).map (·.1) := by
        rw [harray, List.map_append]
        exact List.mem_append_right _ hmem
      rw [keys_overwritten] at hitem
      obtain ⟨i, rfl, hi, hle⟩ := mem_keys_arrayEntries.mp hitem
      rcases Int.lt_or_eq_of_le hle with hlt | rfl
      · exact hvalue hnil (hk ▸ hlast ▸ ht.last_behind hi hlt)
      · exact hend ⟨hnil, hlast ▸ hk, hlast, by omega⟩
    have hkeys : ∀ k, k ∈ t.places.map (·.1) ↔ k ∈ (front ++ nils ++ t.entries).map (·.1) := by
      simp only [← hall, keys_overwritten, implies_true]
    refine ⟨?_, ?_⟩
    · intro k hk
      have hold := (hkeys k).mp (hplaced k hk)
      rw [hplaces]
      simpa [hnot k hk] using hold
    · rw [hplaces, ← hover, hall, liveKeys_behind_dropped hnils hnot]

/-- What is permitted makes no new places. -/
theorem Parted.notMem_set (ht : t.Parted) (h : v.isNil = true ∨ (t.get key).isNil = false)
    (hk : k ∉ t.places.map (·.1)) : k ∉ (t.set key v).places.map (·.1) := by
  rcases ht.places_set h with hplaces | ⟨-, -, front, nils, -, hall, hplaces, -⟩
  · rwa [hplaces, keys_overwritten]
  · rw [← keys_overwritten key v, hall] at hk
    rw [hplaces]
    simp only [List.map_append, List.mem_append, not_or] at hk ⊢
    exact ⟨hk.1.1, hk.2⟩

end Table

end ScriptHost
