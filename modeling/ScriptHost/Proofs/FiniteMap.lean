import Mathlib.Data.List.Nodup
import Mathlib.Tactic.Common
import ScriptHost.Table

/-! # Tables as finite maps

An integer key may be kept in the array, among the entries, or as an entry set to nil that the array
shadows, and it moves between them as the array grows and is trimmed. What makes a table a map all the
same is that no entry with a value names a key of the array or the key after it. Every write keeps
this, whatever is stored, so that each way to read an entry gives the last value stored under its key.
-/

namespace ScriptHost

theorem Value.eq_nil {v : Value} (h : v.isNil = true) : v = .nil := by
  cases v with
  | nil => rfl
  | bool | float | int | string | light | object | foreign => cases h

namespace Table

variable {t : Table} {array : Array Value} {entries : List (Key × Value)} {key k : Key} {v w : Value}
  {n : Nat}

/-! ## Entries -/

theorem lookup_cons : List.lookup k ((key, v) :: entries) =
    if k = key then some v else entries.lookup k := by
  by_cases h : k = key
  · rw [h, List.lookup_cons_self, if_pos rfl]
  · rw [List.lookup_cons, beq_false_of_ne h, if_neg h]

theorem mem_of_lookup (h : entries.lookup k = some v) : (k, v) ∈ entries := by
  obtain ⟨l, l', rfl, -⟩ := List.lookup_eq_some_iff.mp h
  simp

theorem lookup_eq_none : entries.lookup k = none ↔ k ∉ entries.map (·.1) := by
  rw [List.lookup_eq_none_iff]
  simp only [bne_iff_ne, ne_eq, List.mem_map, not_exists, not_and]
  exact forall_congr' fun e => forall_congr' fun _ => not_congr eq_comm

theorem mem_of_entryValue (h : (entryValue entries k).isNil = false) :
    (k, entryValue entries k) ∈ entries := by
  unfold entryValue at h ⊢
  cases hl : entries.lookup k with
  | none =>
      rw [hl] at h
      cases h
  | some w => exact mem_of_lookup hl

/-- An entry that is overwritten keeps its place. -/
theorem overwriteValue?_spec (entries : List (Key × Value)) (key : Key) (v : Value) :
    overwriteValue? key v entries = none ∧ entries.lookup key = none ∨
    ∃ replaced, overwriteValue? key v entries = some replaced ∧
      replaced.map (·.1) = entries.map (·.1) ∧ (∀ e ∈ replaced, e = (key, v) ∨ e ∈ entries) ∧
      ∀ k, replaced.lookup k = if k = key then some v else entries.lookup k := by
  induction entries with
  | nil => exact .inl ⟨rfl, rfl⟩
  | cons e rest ih =>
      obtain ⟨first, w⟩ := e
      rw [overwriteValue?]
      by_cases hfirst : first = key
      · subst hfirst
        rw [if_pos rfl]
        refine .inr ⟨_, rfl, rfl, fun e he => ?_, fun k => ?_⟩
        · exact (List.mem_cons.mp he).imp_right (List.mem_cons_of_mem _)
        · rw [lookup_cons, lookup_cons]
          split <;> rfl
      · rw [if_neg hfirst]
        rcases ih with ⟨hnone, hlookup⟩ | ⟨replaced, hsome, hkeys, hmem, hlookup⟩
        · refine .inl ⟨by rw [hnone]; rfl, ?_⟩
          rw [lookup_cons, if_neg (Ne.symm hfirst), hlookup]
        · refine .inr ⟨_, by rw [hsome]; rfl, by simp [hkeys], fun e he => ?_, fun k => ?_⟩
          · rcases List.mem_cons.mp he with rfl | he
            · exact .inr List.mem_cons_self
            · exact (hmem e he).imp_right (List.mem_cons_of_mem _)
          · rw [lookup_cons, lookup_cons, hlookup]
            by_cases hk : k = first
            · simp [hk, hfirst]
            · simp [hk]

/-- Storing a value or nil under a key leaves the other entries alone. -/
theorem entryValue_storeEntry : entryValue (storeEntry entries key v) k =
    if k = key then v else entryValue entries k := by
  unfold storeEntry
  rcases overwriteValue?_spec entries key v with
    ⟨hnone, hlookup⟩ | ⟨replaced, hsome, -, -, hreplaced⟩
  · rw [hnone]
    dsimp only
    by_cases hv : v.isNil = true
    · rw [if_pos hv]
      by_cases hk : k = key
      · rw [if_pos hk, hk, entryValue, hlookup]
        cases v <;> first | rfl | cases hv
      · rw [if_neg hk]
    · rw [if_neg hv, entryValue, List.lookup_append, lookup_cons]
      by_cases hk : k = key
      · rw [hk, hlookup, if_pos rfl, if_pos rfl]
        rfl
      · rw [if_neg hk, if_neg hk, List.lookup_nil, Option.or_none]
        rfl
  · rw [hsome]
    dsimp only
    rw [entryValue, hreplaced k]
    split <;> rfl

theorem nodup_storeEntry (h : (entries.map (·.1)).Nodup) :
    ((storeEntry entries key v).map (·.1)).Nodup := by
  unfold storeEntry
  rcases overwriteValue?_spec entries key v with
    ⟨hnone, hlookup⟩ | ⟨replaced, hsome, hkeys, -, -⟩
  · rw [hnone]
    dsimp only
    split
    · exact h
    · rw [List.map_append, List.map_singleton, List.nodup_append]
      refine ⟨h, List.nodup_singleton _, fun k hk k' hk' => ?_⟩
      rw [List.mem_singleton.mp hk']
      rintro rfl
      exact lookup_eq_none.mp hlookup hk
  · rw [hsome]
    exact hkeys ▸ h

theorem mem_storeEntry {e : Key × Value} (h : e ∈ storeEntry entries key v) :
    e = (key, v) ∨ e ∈ entries := by
  unfold storeEntry at h
  rcases overwriteValue?_spec entries key v with ⟨hnone, -⟩ | ⟨replaced, hsome, -, hmem, -⟩
  · rw [hnone] at h
    dsimp only at h
    split at h
    · exact .inr h
    · exact (List.mem_append.mp h).elim .inr fun h => .inl (List.mem_singleton.mp h)
  · rw [hsome] at h
    exact hmem e h

theorem entryValue_eraseP (h : (entries.map (·.1)).Nodup) :
    entryValue (entries.eraseP (·.1 == key)) k = if k = key then .nil else entryValue entries k := by
  induction entries with
  | nil => exact (ite_self _).symm
  | cons e rest ih =>
      obtain ⟨first, w⟩ := e
      rw [List.map_cons, List.nodup_cons] at h
      rw [List.eraseP_cons]
      by_cases hfirst : first = key
      · subst hfirst
        simp only [beq_self_eq_true, cond_true]
        by_cases hk : k = first
        · rw [if_pos hk, entryValue, hk, lookup_eq_none.mpr h.1]
          rfl
        · rw [if_neg hk, entryValue, entryValue, lookup_cons, if_neg hk]
      · simp only [beq_false_of_ne hfirst, cond_false]
        have ih := ih h.2
        unfold entryValue at ih ⊢
        rw [lookup_cons, lookup_cons]
        by_cases hk : k = first
        · rw [if_pos hk, if_pos hk, if_neg (hk ▸ hfirst)]
        · rw [if_neg hk, if_neg hk, ih]

theorem nodup_eraseP (h : (entries.map (·.1)).Nodup) :
    ((entries.eraseP (·.1 == key)).map (·.1)).Nodup :=
  h.sublist (List.eraseP_sublist.map _)

/-! ## Reading -/

theorem getInt_array {i : Int} (h : 1 ≤ i) (hle : i ≤ t.array.size) :
    t.getInt i = t.array[(i - 1).toNat]?.getD .nil := by
  rw [getInt, arrayIndex?, if_pos ⟨h, hle⟩]

theorem getInt_entry {i : Int} (h : ¬ (1 ≤ i ∧ i ≤ t.array.size)) :
    t.getInt i = entryValue t.entries (.integer i) := by
  rw [getInt, arrayIndex?, if_neg h]

theorem get_entry (h : ∀ i : Int, k = .integer i → ¬ (1 ≤ i ∧ i ≤ t.array.size)) :
    t.get k = entryValue t.entries k := by
  cases k with
  | integer i => exact getInt_entry (h i rfl)
  | string | float | object | foreign | boolean | light => rfl

/-- A value that is read is in the array or among the entries. -/
theorem mem_of_get (h : (t.get k).isNil = false) : t.get k ∈ t.array ∨ (k, t.get k) ∈ t.entries := by
  by_cases hk : ∃ i : Int, k = .integer i ∧ 1 ≤ i ∧ i ≤ t.array.size
  · obtain ⟨i, rfl, hi⟩ := hk
    have hlt : (i - 1).toNat < t.array.size := by omega
    have hget : t.get (.integer i) = t.array[(i - 1).toNat] := by
      change t.getInt i = _
      rw [getInt_array hi.1 hi.2, Array.getElem?_eq_getElem hlt, Option.getD_some]
    exact .inl (hget ▸ Array.getElem_mem hlt)
  · rw [get_entry fun i hi h => hk ⟨i, hi, h⟩] at h ⊢
    exact .inr (mem_of_entryValue h)

/-- Entries under keys of the array are not read, and neither is the metatable. -/
theorem get_congr {other : List (Key × Value)} {mt mt' : Option Nat}
    (h : (∀ i : Int, k = .integer i → ¬ (1 ≤ i ∧ i ≤ array.size)) →
      entryValue entries k = entryValue other k) :
    ({ array, entries, metatable := mt } : Table).get k =
      ({ array, entries := other, metatable := mt' } : Table).get k := by
  by_cases hk : ∃ i : Int, k = .integer i ∧ 1 ≤ i ∧ i ≤ array.size
  · obtain ⟨i, rfl, hi⟩ := hk
    change getInt _ i = getInt _ i
    rw [getInt_array hi.1 hi.2, getInt_array hi.1 hi.2]
  · have hout : ∀ i : Int, k = .integer i → ¬ (1 ≤ i ∧ i ≤ array.size) := fun i hi h => hk ⟨i, hi, h⟩
    rw [get_entry hout, get_entry hout, h hout]

/-! ## The layers of a table -/

/-- None of the keys 1, …, n has a value among the entries. -/
def Shadowed (entries : List (Key × Value)) (n : Nat) : Prop :=
  ∀ i : Int, 1 ≤ i → i ≤ n → entryValue entries (.integer i) = .nil

theorem Shadowed.mono {n' : Nat} (h : Shadowed entries n) (hle : n' ≤ n) : Shadowed entries n' :=
  fun i hi hi' => h i hi (by omega)

theorem Shadowed.succ (h : Shadowed entries n)
    (hnext : entryValue entries (.integer (n + 1)) = .nil) : Shadowed entries (n + 1) := by
  intro i hi hle
  rcases Int.lt_or_eq_of_le hle with hlt | rfl
  · exact h i hi (by omega)
  · exact hnext

theorem Shadowed.erase (h : Shadowed entries n) (hnodup : (entries.map (·.1)).Nodup) :
    Shadowed (entries.eraseP (·.1 == key)) n := by
  intro i hi hle
  rw [entryValue_eraseP hnodup]
  split
  · rfl
  · exact h i hi hle

theorem Shadowed.store (h : Shadowed entries n)
    (hkey : ∀ i : Int, key = .integer i → 1 ≤ i → i ≤ n → v = .nil) :
    Shadowed (storeEntry entries key v) n := by
  intro i hi hle
  rw [entryValue_storeEntry]
  split
  · rename_i heq
    exact hkey i heq.symm hi hle
  · exact h i hi hle

/-- The array does not end in nil. -/
def Trimmed (array : Array Value) : Prop := ∀ v, array.back? = some v → v.isNil = false

/-- Array and entries keep out of each other's way: each key has one entry at most, the keys of the
    array and the one after it have no value among the entries, and the array does not end in nil. -/
structure Layered (t : Table) : Prop where
  nodup : (t.entries.map (·.1)).Nodup
  shadowed : Shadowed t.entries (t.array.size + 1)
  trimmed : Trimmed t.array

theorem layered_empty : Layered {} :=
  ⟨List.nodup_nil, fun _ _ _ => rfl, fun _ h => by cases h⟩

/-! ## Growing -/

theorem trimmed_push (hv : v.isNil = false) : Trimmed (array.push v) := by
  intro w hw
  rw [Array.back?_push] at hw
  exact Option.some.inj hw ▸ hv

/-- A value at the end of the array is read under the key after those before it. -/
theorem get_push : ({ array := array.push v, entries } : Table).get k =
    if k = .integer (array.size + 1) then v else ({ array, entries } : Table).get k := by
  cases k with
  | integer i =>
      change getInt _ i = if _ then _ else getInt _ i
      have hsize : ((array.push v).size : Int) = array.size + 1 := by simp
      by_cases hi : i = array.size + 1
      · subst hi
        have hlast : ((array.size : Int) + 1 - 1).toNat = array.size := by omega
        rw [getInt_array (by omega) (Int.le_of_eq hsize.symm), hlast, Array.getElem?_push_size, if_pos rfl]
        rfl
      · rw [if_neg fun h => hi (Key.integer.inj h)]
        by_cases hold : 1 ≤ i ∧ i ≤ array.size
        · have hlt : (i - 1).toNat < array.size := by omega
          have hle : i ≤ (array.push v).size := by omega
          rw [getInt_array hold.1 hle, getInt_array hold.1 hold.2, Array.getElem?_push_lt hlt,
            Array.getElem?_eq_getElem hlt]
        · have hnew : ¬ (1 ≤ i ∧ i ≤ (array.push v).size) := by omega
          rw [getInt_entry hnew, getInt_entry hold]
  | string | float | object | foreign | boolean | light => rfl

/-- Moving an entry to the end of the array changes nothing that is read. -/
theorem get_moved (hnodup : (entries.map (·.1)).Nodup)
    (hlookup : entries.lookup (.integer (array.size + 1)) = some v) :
    ({ array := array.push v, entries := entries.eraseP (·.1 == .integer (array.size + 1)) } : Table).get k
      = ({ array, entries } : Table).get k := by
  have herase : ({ array := array.push v
                   entries := entries.eraseP (·.1 == .integer (array.size + 1)) } : Table).get k =
      ({ array := array.push v, entries } : Table).get k := by
    refine get_congr fun hk => ?_
    rw [entryValue_eraseP hnodup, if_neg]
    rintro rfl
    refine hk _ rfl ⟨by omega, ?_⟩
    rw [Array.size_push]
    omega
  rw [herase, get_push]
  split
  · rename_i hk
    subst hk
    change v = getInt _ _
    rw [getInt_entry (by dsimp only; omega), entryValue, hlookup]
    rfl
  · rfl

/-- Dropping an entry that was set to nil changes nothing that is read. -/
theorem get_dropped (hnodup : (entries.map (·.1)).Nodup) (hkey : entryValue entries key = .nil) :
    ({ array, entries := entries.eraseP (·.1 == key) } : Table).get k =
      ({ array, entries } : Table).get k := by
  refine get_congr fun _ => ?_
  rw [entryValue_eraseP hnodup]
  split
  · rename_i hk
    rw [hk, hkey]
  · rfl

/-- Moving entries into the array changes nothing that is read, and ends where no entry follows. -/
theorem layered_absorb {fuel : Nat} (hnodup : (entries.map (·.1)).Nodup)
    (hshadowed : Shadowed entries array.size) (htrimmed : Trimmed array)
    (hfuel : entries.length ≤ fuel) :
    (absorb array entries fuel).Layered ∧
      ∀ k, (absorb array entries fuel).get k = ({ array, entries } : Table).get k := by
  induction fuel generalizing array entries with
  | zero =>
      obtain rfl := List.eq_nil_of_length_eq_zero (Nat.le_zero.mp hfuel)
      exact ⟨⟨hnodup, hshadowed.succ rfl, htrimmed⟩, fun _ => rfl⟩
  | succ fuel ih =>
      rw [absorb]
      dsimp only
      cases hlookup : entries.lookup (.integer (array.size + 1)) with
      | none =>
          refine ⟨⟨hnodup, hshadowed.succ ?_, htrimmed⟩, fun _ => rfl⟩
          rw [entryValue, hlookup]
          rfl
      | some w =>
          dsimp only
          have hnext : Shadowed (entries.eraseP (·.1 == Key.integer (array.size + 1)))
              (array.size + 1) := by
            refine (hshadowed.erase hnodup).succ ?_
            rw [entryValue_eraseP hnodup, if_pos rfl]
          by_cases hw : w.isNil = true
          · rw [if_pos hw]
            refine ⟨⟨nodup_eraseP hnodup, hnext, htrimmed⟩, fun k => get_dropped hnodup ?_⟩
            rw [entryValue, hlookup]
            cases w <;> first | rfl | cases hw
          · rw [if_neg hw]
            have hlength : (entries.eraseP (·.1 == Key.integer (array.size + 1))).length =
                entries.length - 1 :=
              List.length_eraseP_of_mem (mem_of_lookup hlookup) (beq_self_eq_true _)
            obtain ⟨hlayered, hget⟩ := ih (nodup_eraseP hnodup) (by rwa [Array.size_push])
              (trimmed_push (Bool.eq_false_iff.mpr hw)) (by omega)
            exact ⟨hlayered, fun k => (hget k).trans (get_moved hnodup hlookup)⟩

/-! ## Trimming -/

theorem trim_size_le (array : Array Value) : (trim array).size ≤ array.size := by
  induction array using trim.induct with
  | case1 array h hnil ih =>
      rw [trim, dif_pos h, if_pos hnil]
      rw [Array.size_pop] at ih
      omega
  | case2 array h hvalue =>
      have heq : trim array = array := by rw [trim, dif_pos h, if_neg hvalue]
      exact Nat.le_of_eq (congrArg Array.size heq)
  | case3 array h =>
      have heq : trim array = array := by rw [trim, dif_neg h]
      exact Nat.le_of_eq (congrArg Array.size heq)

theorem trimmed_trim (array : Array Value) : Trimmed (trim array) := by
  induction array using trim.induct with
  | case1 array h hnil ih =>
      rw [trim, dif_pos h, if_pos hnil]
      exact ih
  | case2 array h hvalue =>
      rw [trim, dif_pos h, if_neg hvalue]
      intro w hw
      rw [Array.back?_eq_getElem?, Array.getElem?_eq_getElem (by omega)] at hw
      exact Option.some.inj hw ▸ Bool.eq_false_iff.mpr hvalue
  | case3 array h =>
      rw [trim, dif_neg h]
      intro w hw
      rw [Array.back?_eq_getElem?, Array.getElem?_eq_none (by omega)] at hw
      cases hw

/-- What is trimmed off was nil. -/
theorem getD_trim (array : Array Value) (n : Nat) :
    (trim array)[n]?.getD .nil = array[n]?.getD .nil := by
  induction array using trim.induct with
  | case1 array h hnil ih =>
      rw [trim, dif_pos h, if_pos hnil, ih, Array.getElem?_pop]
      rcases Nat.lt_trichotomy n (array.size - 1) with hlt | rfl | hgt
      · rw [if_pos hlt]
      · rw [if_neg (Nat.lt_irrefl _), Array.getElem?_eq_getElem (by omega)]
        cases hlast : array[array.size - 1] <;> rw [hlast] at hnil <;> first | rfl | cases hnil
      · rw [if_neg (by omega), Array.getElem?_eq_none (by omega)]
  | case2 array h hvalue => rw [trim, dif_pos h, if_neg hvalue]
  | case3 array h => rw [trim, dif_neg h]

/-- A key that leaves the array reads as nil before and after. -/
theorem get_trim {mt : Option Nat} (hshadowed : Shadowed entries array.size) :
    ({ array := trim array, entries, metatable := mt } : Table).get k =
      ({ array, entries, metatable := mt } : Table).get k := by
  cases k with
  | integer i =>
      change getInt _ i = getInt _ i
      have hle := trim_size_le array
      by_cases hkept : 1 ≤ i ∧ i ≤ (trim array).size
      · rw [getInt_array hkept.1 hkept.2, getInt_array hkept.1 (by dsimp only; omega)]
        exact getD_trim array _
      · rw [getInt_entry hkept]
        by_cases hdropped : 1 ≤ i ∧ i ≤ array.size
        · rw [getInt_array hdropped.1 hdropped.2]
          dsimp only
          rw [hshadowed i hdropped.1 hdropped.2, ← getD_trim, Array.getElem?_eq_none (by omega)]
          rfl
        · rw [getInt_entry hdropped]
  | string | float | object | foreign | boolean | light => rfl

/-! ## Writing -/

/-- The array after a write to one of its places. -/
def setItem (array : Array Value) (n : Nat) (v : Value) : Array Value :=
  if n + 1 = (array.setIfInBounds n v).size && v.isNil then trim (array.setIfInBounds n v)
  else array.setIfInBounds n v

theorem setItem_size_le (array : Array Value) (n : Nat) (v : Value) : (setItem array n v).size ≤ array.size := by
  unfold setItem
  split
  · simpa using trim_size_le (array.setIfInBounds n v)
  · simp

theorem set_item {i : Int} (hi : 1 ≤ i ∧ i ≤ t.array.size) :
    t.set (.integer i) v = { t with array := setItem t.array (i - 1).toNat v } := by
  change t.setInt i v = _
  unfold setInt arrayIndex?
  rw [if_pos hi]
  rfl

theorem set_next (hv : v.isNil = false) : t.set (.integer (t.array.size + 1)) v =
    { absorb (t.array.push v) t.entries t.entries.length with metatable := t.metatable } := by
  have hout : ¬ (1 ≤ (t.array.size : Int) + 1 ∧ (t.array.size : Int) + 1 ≤ t.array.size) := by omega
  change t.setInt _ v = _
  unfold setInt arrayIndex?
  simp only [if_neg hout, hv, Bool.not_false, Bool.and_true, decide_true, if_true]

theorem set_entry (hitem : ∀ i : Int, key = .integer i → ¬ (1 ≤ i ∧ i ≤ t.array.size))
    (hnext : key = .integer (t.array.size + 1) → v.isNil = true) :
    t.set key v = { t with entries := storeEntry t.entries key v } := by
  cases key with
  | integer i =>
      have hcond : (decide (i = t.array.size + 1) && !v.isNil) = false := by
        by_cases hi : i = t.array.size + 1
        · rw [hnext (congrArg Key.integer hi), Bool.not_true, Bool.and_false]
        · rw [decide_eq_false hi, Bool.false_and]
      change t.setInt i v = _
      unfold setInt arrayIndex?
      simp only [if_neg (hitem i rfl), hcond, Bool.false_eq_true, if_false]
  | string | float | object | foreign | boolean | light => rfl

/-- A write goes to the array, to its end, or among the entries. -/
theorem set_cases (t : Table) (key : Key) (v : Value) :
    (∃ i : Int, key = .integer i ∧ 1 ≤ i ∧ i ≤ t.array.size ∧
      t.set key v = { t with array := setItem t.array (i - 1).toNat v }) ∨
    (key = .integer (t.array.size + 1) ∧ v.isNil = false ∧ t.set key v =
      { absorb (t.array.push v) t.entries t.entries.length with metatable := t.metatable }) ∨
    ((∀ i : Int, key = .integer i → ¬ (1 ≤ i ∧ i ≤ t.array.size)) ∧
      (key = .integer (t.array.size + 1) → v.isNil = true) ∧
      t.set key v = { t with entries := storeEntry t.entries key v }) := by
  by_cases hitem : ∃ i : Int, key = .integer i ∧ 1 ≤ i ∧ i ≤ t.array.size
  · obtain ⟨i, rfl, hi⟩ := hitem
    exact .inl ⟨i, rfl, hi.1, hi.2, set_item hi⟩
  · have hitem : ∀ i : Int, key = .integer i → ¬ (1 ≤ i ∧ i ≤ t.array.size) :=
      fun i hi h => hitem ⟨i, hi, h⟩
    by_cases hnext : key = .integer (t.array.size + 1) ∧ v.isNil = false
    · obtain ⟨rfl, hv⟩ := hnext
      exact .inr (.inl ⟨rfl, hv, set_next hv⟩)
    · have hnext : key = .integer (t.array.size + 1) → v.isNil = true := fun hkey =>
        Bool.not_eq_false _ ▸ fun hv => hnext ⟨hkey, hv⟩
      exact .inr (.inr ⟨hitem, hnext, set_entry hitem hnext⟩)

theorem metatable_set : (t.set key v).metatable = t.metatable := by
  rcases set_cases t key v with ⟨i, -, -, -, h⟩ | ⟨-, -, h⟩ | ⟨-, -, h⟩ <;> rw [h]

theorem get_setIfInBounds {i : Int} (h : 1 ≤ i) (hle : i ≤ t.array.size) :
    ({ t with array := t.array.setIfInBounds (i - 1).toNat v } : Table).get k =
      if k = .integer i then v else t.get k := by
  have hsize : (t.array.setIfInBounds (i - 1).toNat v).size = t.array.size := by simp
  cases k with
  | integer j =>
      change getInt _ j = if _ then _ else getInt _ j
      by_cases hj : 1 ≤ j ∧ j ≤ t.array.size
      · have hj' : j ≤ (t.array.setIfInBounds (i - 1).toNat v).size := hsize ▸ hj.2
        rw [getInt_array hj.1 hj', getInt_array hj.1 hj.2, Array.getElem?_setIfInBounds]
        by_cases hij : j = i
        · subst hij
          rw [if_pos rfl, if_pos rfl, if_pos (by omega)]
          rfl
        · rw [if_neg (by omega), if_neg fun h => hij (Key.integer.inj h)]
      · have hj' : ¬ (1 ≤ j ∧ j ≤ (t.array.setIfInBounds (i - 1).toNat v).size) := hsize ▸ hj
        rw [getInt_entry hj', getInt_entry hj, if_neg]
        rintro ⟨⟩
        exact hj ⟨h, hle⟩
  | string | float | object | foreign | boolean | light => rfl

/-- A write to the array may end in nils, which are trimmed off. -/
theorem Layered.setItem (ht : t.Layered) {i : Int} (h : 1 ≤ i) (hle : i ≤ t.array.size) :
    ({ t with array := setItem t.array (i - 1).toNat v } : Table).Layered ∧
      ∀ k, ({ t with array := setItem t.array (i - 1).toNat v } : Table).get k =
        if k = .integer i then v else t.get k := by
  have hsize : (t.array.setIfInBounds (i - 1).toNat v).size = t.array.size := by simp
  have hwritten := fun k => get_setIfInBounds (k := k) (v := v) h hle
  unfold Table.setItem
  split
  · have hshadowed : Shadowed t.entries (t.array.setIfInBounds (i - 1).toNat v).size := by
      rw [hsize]
      exact ht.shadowed.mono (Nat.le_succ _)
    refine ⟨⟨ht.nodup, ht.shadowed.mono ?_, trimmed_trim _⟩, fun k => ?_⟩
    · have := trim_size_le (t.array.setIfInBounds (i - 1).toNat v)
      dsimp only
      omega
    · rw [get_trim hshadowed, hwritten]
  · rename_i hkept
    refine ⟨⟨ht.nodup, by rw [hsize]; exact ht.shadowed, fun w hw => ?_⟩, hwritten⟩
    dsimp only at hw
    rw [Array.back?_eq_getElem?, Array.getElem?_setIfInBounds] at hw
    split at hw
    · rename_i hlast
      rw [if_pos (by omega)] at hw
      obtain rfl := Option.some.inj hw
      have hend : (i - 1).toNat + 1 = (t.array.setIfInBounds (i - 1).toNat v).size := by omega
      rw [decide_eq_true hend, Bool.true_and] at hkept
      exact Bool.eq_false_iff.mpr hkept
    · rw [hsize, ← Array.back?_eq_getElem?] at hw
      exact ht.trimmed w hw

/-- A value at the end of the array, and the entries that follow it there. -/
theorem Layered.setNext (ht : t.Layered) (hv : v.isNil = false) :
    ({ absorb (t.array.push v) t.entries t.entries.length with metatable := t.metatable } : Table).Layered ∧
      ∀ k, ({ absorb (t.array.push v) t.entries t.entries.length with metatable := t.metatable } :
        Table).get k = if k = .integer (t.array.size + 1) then v else t.get k := by
  have hshadowed : Shadowed t.entries (t.array.push v).size := by
    rw [Array.size_push]
    exact ht.shadowed
  obtain ⟨hlayered, hget⟩ := layered_absorb ht.nodup hshadowed (trimmed_push hv) (Nat.le_refl _)
  have hplain : ∀ (u : Table) (mt : Option Nat) (k : Key),
      ({ u with metatable := mt } : Table).get k = u.get k :=
    fun _ _ _ => get_congr fun _ => rfl
  refine ⟨⟨hlayered.nodup, hlayered.shadowed, hlayered.trimmed⟩, fun k => ?_⟩
  rw [hplain, hget, get_push, hplain t none]

/-- Storing among the entries, where nil keeps the place of what was there. -/
theorem Layered.setEntry (ht : t.Layered)
    (hitem : ∀ i : Int, key = .integer i → ¬ (1 ≤ i ∧ i ≤ t.array.size))
    (hnext : key = .integer (t.array.size + 1) → v.isNil = true) :
    ({ t with entries := storeEntry t.entries key v } : Table).Layered ∧
      ∀ k, ({ t with entries := storeEntry t.entries key v } : Table).get k =
        if k = key then v else t.get k := by
  refine ⟨⟨nodup_storeEntry ht.nodup, ht.shadowed.store fun i hi h hle => ?_, ht.trimmed⟩, fun k => ?_⟩
  · have hnil : v.isNil = true := by
      rcases Int.lt_or_eq_of_le hle with hlt | rfl
      · exact absurd ⟨h, by omega⟩ (hitem i hi)
      · exact hnext hi
    cases v <;> first | rfl | cases hnil
  · by_cases hk : k = key
    · subst hk
      have hread : ({ t with entries := storeEntry t.entries k v } : Table).get k =
          entryValue (storeEntry t.entries k v) k := get_entry hitem
      rw [if_pos rfl, hread, entryValue_storeEntry, if_pos rfl]
    · rw [if_neg hk]
      refine get_congr fun _ => ?_
      rw [entryValue_storeEntry, if_neg hk]

/-- Storing under a key, nil included, changes what is read under that key only. -/
theorem Layered.set (ht : t.Layered) (key : Key) (v : Value) :
    (t.set key v).Layered ∧ ∀ k, (t.set key v).get k = if k = key then v else t.get k := by
  rcases set_cases t key v with
    ⟨i, rfl, h, hle, heq⟩ | ⟨rfl, hv, heq⟩ | ⟨hitem, hnext, heq⟩ <;> rw [heq]
  · exact ht.setItem h hle
  · exact ht.setNext hv
  · exact ht.setEntry hitem hnext

/-! ## What a table holds -/

/-- A value that is kept under some key, whether or not it can be read. -/
def Keeps (t : Table) (w : Value) : Prop := w ∈ t.array ∨ ∃ k, (k, w) ∈ t.entries

theorem mem_trim (h : w ∈ trim array) : w ∈ array := by
  induction array using trim.induct with
  | case1 array hsize hnil ih =>
      rw [trim, dif_pos hsize, if_pos hnil] at h
      obtain ⟨n, hn⟩ := Array.mem_iff_getElem?.mp (ih h)
      rw [Array.getElem?_pop] at hn
      split at hn
      · exact Array.mem_of_getElem? hn
      · cases hn
  | case2 array hsize hvalue => rwa [trim, dif_pos hsize, if_neg hvalue] at h
  | case3 array hsize => rwa [trim, dif_neg hsize] at h

theorem mem_absorb (array : Array Value) (entries : List (Key × Value)) (fuel : Nat) :
    ((absorb array entries fuel).Keeps w → ({ array, entries } : Table).Keeps w) ∧
      ∀ e ∈ (absorb array entries fuel).entries, e ∈ entries := by
  induction fuel generalizing array entries with
  | zero => exact ⟨id, fun _ => id⟩
  | succ fuel ih =>
      rw [absorb]
      dsimp only
      cases hlookup : entries.lookup (.integer (array.size + 1)) with
      | none => exact ⟨id, fun _ => id⟩
      | some moved =>
          dsimp only
          split
          · exact ⟨fun h => h.imp_right fun ⟨k, hk⟩ => ⟨k, List.mem_of_mem_eraseP hk⟩,
              fun e => List.mem_of_mem_eraseP⟩
          · obtain ⟨hkeeps, hentries⟩ := ih (array.push moved)
              (entries.eraseP (·.1 == Key.integer (array.size + 1)))
            refine ⟨fun h => ?_, fun e he => List.mem_of_mem_eraseP (hentries e he)⟩
            rcases hkeeps h with hitem | ⟨k, hk⟩
            · rcases Array.mem_push.mp hitem with hitem | rfl
              · exact .inl hitem
              · exact .inr ⟨_, mem_of_lookup hlookup⟩
            · exact .inr ⟨k, List.mem_of_mem_eraseP hk⟩

/-- A write brings in its own value and its own entry only. -/
theorem keeps_set (t : Table) (key : Key) (v : Value) :
    (∀ w, (t.set key v).Keeps w → w = v ∨ t.Keeps w) ∧
      ∀ e ∈ (t.set key v).entries, e = (key, v) ∨ e ∈ t.entries := by
  rcases set_cases t key v with ⟨i, -, -, -, heq⟩ | ⟨-, -, heq⟩ | ⟨-, -, heq⟩ <;> rw [heq]
  · refine ⟨fun w h => ?_, fun e he => .inr he⟩
    rcases h with hitem | hentry
    · have hmem : w ∈ t.array.setIfInBounds (i - 1).toNat v := by
        unfold setItem at hitem
        split at hitem
        · exact mem_trim hitem
        · exact hitem
      exact (Array.mem_or_eq_of_mem_setIfInBounds hmem).symm.imp_right .inl
    · exact .inr (.inr hentry)
  · have habsorb := fun w => mem_absorb (w := w) (t.array.push v) t.entries t.entries.length
    refine ⟨fun w h => ?_, fun e he => .inr ((habsorb v).2 e he)⟩
    rcases (habsorb w).1 h with hitem | hentry
    · exact (Array.mem_push.mp hitem).symm.imp_right .inl
    · exact .inr (.inr hentry)
  · refine ⟨fun w h => ?_, fun e he => mem_storeEntry he⟩
    rcases h with hitem | ⟨k, hk⟩
    · exact .inr (.inl hitem)
    · rcases mem_storeEntry hk with heq | hk
      · exact .inl (congrArg Prod.snd heq)
      · exact .inr (.inr ⟨k, hk⟩)

/-! ## The last value stored -/

/-- A way to name an entry. -/
inductive Access where
  | value (v : Value)
  | int (i : Int)
  | string (id : StringId)
  | key (key : Key)
  deriving Repr

namespace Access

/-- The normalized key; none if nil or NaN names the entry. -/
def key? : Access → Option Key
  | .value v => Key.ofValue? v
  | .int i => some (.integer i)
  | .string id => some (.string id)
  | .key key => some key

def read (t : Table) : Access → Value
  | .value v => t.getValue v
  | .int i => t.getInt i
  | .string id => t.get (.string id)
  | .key key => t.get key

def write (t : Table) (v : Value) : Access → Except KeyError Table
  | .value name => t.setValue name v
  | .int i => .ok (t.setInt i v)
  | .string id => .ok (t.set (.string id) v)
  | .key key => .ok (t.set key v)

variable (a : Access)

theorem read_eq (t : Table) : a.read t = a.key?.elim .nil t.get := by
  cases a with
  | value v =>
      rw [read, getValue, key?]
      cases Key.ofValue? v <;> rfl
  | int | string | key => rfl

/-- A write is refused for want of a key only. -/
theorem write_none (h : a.key? = none) (t : Table) (v : Value) : ∃ e, a.write t v = .error e := by
  cases a with
  | value name =>
      change Key.ofValue? name = none at h
      rw [write]
      unfold setValue
      rw [h]
      split
      · exact ⟨_, rfl⟩
      · rename_i heq
        cases heq
      · exact ⟨_, rfl⟩
  | int | string | key => cases h

theorem write_some {key : Key} (h : a.key? = some key) (t : Table) (v : Value) :
    a.write t v = .ok (t.set key v) := by
  cases a with
  | value name =>
      change Key.ofValue? name = some key at h
      rw [write]
      unfold setValue
      rw [h]
      split
      · cases h
      · rename_i heq
        rw [Option.some.inj heq]
      · rename_i heq
        cases heq
  | int | string | key =>
      obtain rfl := Option.some.inj h
      rfl

end Access

/-- Stores one value after the other; a write that is refused leaves the table as it is. -/
def storeAll : List (Access × Value) → Table → Table
  | [], t => t
  | (a, v) :: rest, t =>
      match a.write t v with
      | .ok t' => storeAll rest t'
      | .error _ => storeAll rest t

/-- The value of the last write under a key. -/
def lastStored (writes : List (Access × Value)) (key : Key) : Option Value :=
  (writes.reverse.find? (·.1.key? = some key)).map (·.2)

theorem lastStored_cons (a : Access) (v : Value) (rest : List (Access × Value)) (key : Key) :
    lastStored ((a, v) :: rest) key =
      (lastStored rest key).or (if a.key? = some key then some v else none) := by
  unfold lastStored
  rw [List.reverse_cons, List.find?_append]
  cases rest.reverse.find? (·.1.key? = some key) with
  | some e => rfl
  | none => by_cases h : a.key? = some key <;> simp [h]

/-- A run of writes keeps the layers apart, and a key that none of them names reads as before. -/
theorem layered_storeAll (writes : List (Access × Value)) (ht : t.Layered) :
    (storeAll writes t).Layered ∧
      ∀ key, (storeAll writes t).get key = (lastStored writes key).getD (t.get key) := by
  induction writes generalizing t with
  | nil => exact ⟨ht, fun _ => rfl⟩
  | cons first rest ih =>
      obtain ⟨a, v⟩ := first
      rw [storeAll]
      cases hkey : a.key? with
      | none =>
          obtain ⟨e, hwrite⟩ := a.write_none hkey t v
          rw [hwrite]
          refine ⟨(ih ht).1, fun key => ?_⟩
          rw [lastStored_cons, hkey, if_neg (by simp), Option.or_none]
          exact (ih ht).2 key
      | some written =>
          rw [a.write_some hkey t v]
          obtain ⟨hlayered, hget⟩ := ht.set written v
          refine ⟨(ih hlayered).1, fun key => ?_⟩
          dsimp only
          rw [lastStored_cons, hkey, (ih hlayered).2 key, hget key]
          cases lastStored rest key with
          | some w => rfl
          | none =>
              by_cases h : key = written
              · rw [if_pos h, if_pos (congrArg some h.symm)]
                rfl
              · rw [if_neg h, if_neg fun h' => h (Option.some.inj h').symm]
                rfl

theorem get_empty (key : Key) : ({} : Table).get key = .nil := by
  rw [get_entry fun i _ h => absurd (Int.le_trans h.1 h.2) (by decide)]
  rfl

/-- A table is a finite map. Whatever is stored in it, in whatever order and way, a write is accepted
    exactly where there is a key, and each way to read an entry gives the value last stored under its
    normalized key. -/
theorem read_storeAll (writes : List (Access × Value)) (a : Access) :
    a.read (storeAll writes {}) = (a.key?.bind (lastStored writes)).getD .nil ∧
      ∀ v, (∃ t, a.write (storeAll writes {}) v = .ok t) ↔ a.key?.isSome := by
  cases hkey : a.key? with
  | none =>
      refine ⟨by rw [a.read_eq, hkey]; rfl, fun v => ?_⟩
      obtain ⟨e, hwrite⟩ := a.write_none hkey (storeAll writes {}) v
      simp [hwrite]
  | some key =>
      refine ⟨?_, fun v => ?_⟩
      · rw [a.read_eq, hkey]
        change (storeAll writes {}).get key = (lastStored writes key).getD .nil
        rw [(layered_storeAll writes layered_empty).2 key, get_empty]
      · simp [a.write_some hkey]

end Table

end ScriptHost
