import Mathlib.Data.List.Forall2
import Mathlib.Logic.Function.Basic
import ScriptHost.Proofs.Cycle
import ScriptHost.Proofs.Denotation
import ScriptHost.Proofs.StringPool
import ScriptHost.Proofs.Table

/-! # Values that stand for data

Values of a machine stand for data once it is known where the objects are that were made. Tables stand
for finite maps if the same keys have values in both, which stand for one another. Only objects that
data lead to count, because a cycle may free the others.
-/

namespace ScriptHost

/-- The objects that data lead to, directly or through tables. -/
inductive Live (made : List Made) (xs : List Datum) : Nat → Prop where
  | root {id} : .object id ∈ xs → Live made xs id
  | step {id es id'} : Live made xs id → made[id]? = some (.table es) → es.Mentions id' →
      Live made xs id'

theorem Live.mono {made : List Made} {xs ys : List Datum} {id : Nat} (h : Live made xs id)
    (hsub : xs ⊆ ys) : Live made ys id := by
  induction h with
  | root hid => exact .root (hsub hid)
  | step _ hes hid ih => exact .step ih hes hid

/-- A datum that is no new object leads nowhere else. -/
theorem Live.of_push {made : List Made} {xs : List Datum} {x : Datum} {id : Nat}
    (hold : ∀ id, x = .object id → Live made xs id) (h : Live made (xs ++ [x]) id) :
    Live made xs id := by
  induction h with
  | root hid =>
      rcases List.mem_append.mp hid with hid | hid
      · exact .root hid
      · exact hold _ (List.mem_singleton.mp hid).symm
  | step _ hes hmentions ih => exact .step ih hes hmentions

/-- A new object that holds nothing leads nowhere else. -/
theorem Live.of_make {made : List Made} {xs : List Datum} {what : Made} {id : Nat}
    (hlt : ∀ {id}, Live made xs id → id < made.length) (hbare : ∀ es, what = .table es → es = ∅)
    (h : Live (made ++ [what]) (xs ++ [.object made.length]) id) :
    id = made.length ∨ Live made xs id := by
  induction h with
  | root hid =>
      rcases List.mem_append.mp hid with hid | hid
      · exact .inr (.root hid)
      · exact .inl (Datum.object.inj (List.mem_singleton.mp hid))
  | step _ hes hmentions ih =>
      rcases ih with rfl | ih
      · rw [List.getElem?_concat_length] at hes
        rw [hbare _ (Option.some.inj hes)] at hmentions
        exact (Entries.not_mentions_empty hmentions).elim
      · rw [List.getElem?_append_left (hlt ih)] at hes
        exact .inr (.step ih hes hmentions)

/-- A table that mentions what is at hand leads nowhere else. -/
theorem Live.of_set {made : List Made} {xs : List Datum} {es es' : Entries} {id j : Nat}
    (hes : made[id]? = some (.table es))
    (hmentions : ∀ {j}, es'.Mentions j → es.Mentions j ∨ .object j ∈ xs)
    (h : Live (made.set id (.table es')) xs j) : Live made xs j := by
  have hlt := (List.getElem?_eq_some_iff.mp hes).1
  induction h with
  | root hj => exact .root hj
  | @step i es'' j _ hes'' hj ih =>
      by_cases hi : i = id
      · subst hi
        rw [List.getElem?_set_self hlt] at hes''
        obtain rfl := Made.table.inj (Option.some.inj hes'')
        exact (hmentions hj).elim (.step ih hes) .root
      · rw [List.getElem?_set_ne (Ne.symm hi)] at hes''
        exact .step ih hes'' hj

namespace Machine

/-- A value stands for a datum. The objects that were made are where `ρ` says. -/
inductive Renders (m : Machine) (ρ : Nat → Ref) : Datum → Value → Prop where
  | nil : Renders m ρ .nil .nil
  | bool (b) : Renders m ρ (.bool b) (.bool b)
  | int (i) : Renders m ρ (.int i) (.int i)
  | boxed {i slot} : m.heap.boxed.get? slot = some i → Renders m ρ (.int i) (.boxed slot)
  | number (d) : Renders m ρ (.number d) (.float d)
  | text {bytes id} : m.strings.strings[id]? = some bytes → Renders m ρ (.text bytes) (.string id)
  | light (a) : Renders m ρ (.light a) (.light a)
  | object (id) : Renders m ρ (.object id) (.object (ρ id))

/-- A table key stands for a datum that is one. -/
inductive Names (m : Machine) (ρ : Nat → Ref) : Datum → Key → Prop where
  | bool (b) : Names m ρ (.bool b) (.boolean b)
  | int (i) : Names m ρ (.int i) (.integer i)
  | number (d) : Names m ρ (.number d) (.float d)
  | text {bytes id} : m.strings.strings[id]? = some bytes → Names m ρ (.text bytes) (.string id)
  | light (a) : Names m ρ (.light a) (.light a)
  | object (id) : Names m ρ (.object id) (.object (ρ id))

/-- A table without metatable holds the entries of a map and no others. -/
structure Tabulates (m : Machine) (ρ : Nat → Ref) (es : Entries) (t : Table) : Prop where
  dense : t.Dense
  plain : t.metatable = none
  values : ∀ {k x}, es.lookup k = some x → x ≠ .nil
  present : ∀ {k x}, es.lookup k = some x →
    ∃ key, Names m ρ k key ∧ Renders m ρ x (t.get key)
  only : ∀ {key}, (t.get key).isNil = false → ∃ k, (es.lookup k).isSome = true ∧ Names m ρ k key

/-- The object at a place is what was made. -/
inductive Makes (m : Machine) (ρ : Nat → Ref) : Made → Ref → Prop where
  | function {code slot} : m.heap.function? slot =
      some { body := { behaviour := .code code, origin := .host }, upvalues := #[] } →
      Makes m ρ (.function code) ⟨.function, slot⟩
  | table {es slot t} : m.heap.tables.get? slot = some t → Tabulates m ρ es t →
      Makes m ρ (.table es) ⟨.table, slot⟩

/-- Values stand for data, and the objects that these lead to are in different places. -/
structure Agrees (made : List Made) (ρ : Nat → Ref) (xs : List Datum) (vs : List Value)
    (m : Machine) : Prop where
  values : List.Forall₂ (Renders m ρ) xs vs
  objects : ∀ {id}, Live made xs id → ∃ x, made[id]? = some x ∧ Makes m ρ x (ρ id)
  distinct : ∀ {i j}, Live made xs i → Live made xs j → ρ i = ρ j → i = j

variable {m m' : Machine} {ρ ρ' : Nat → Ref} {made : List Made} {xs ys : List Datum}
  {vs : List Value} {x k : Datum} {v : Value} {key : Key} {es : Entries} {t : Table} {id n : Nat}

/-! ## Lists of values -/

section Lists

variable {R : Datum → Value → Prop}

theorem forall₂_concat :
    List.Forall₂ R (xs ++ [x]) (vs ++ [v]) ↔ List.Forall₂ R xs vs ∧ R x v := by
  rw [← List.forall₂_reverse_iff]
  simp [and_comm]

/-- The last value stands for a last datum. -/
theorem exists_concat (h : List.Forall₂ R xs (vs ++ [v])) :
    ∃ ys x, xs = ys ++ [x] ∧ List.Forall₂ R ys vs ∧ R x v := by
  rcases List.eq_nil_or_concat' xs with rfl | ⟨ys, x, rfl⟩
  · simp at h
  · exact ⟨ys, x, rfl, forall₂_concat.mp h⟩

theorem exists_value (h : List.Forall₂ R xs vs) (hx : x ∈ xs) : ∃ v ∈ vs, R x v := by
  induction h with
  | nil => cases hx
  | cons hfirst _ ih =>
      rcases List.mem_cons.mp hx with rfl | hx
      · exact ⟨_, List.mem_cons_self, hfirst⟩
      · obtain ⟨v, hv, hr⟩ := ih hx
        exact ⟨v, List.mem_cons_of_mem _ hv, hr⟩

/-- Values go on to stand for data when each of them does. -/
theorem forall₂_keep {R' : Datum → Value → Prop} (h : List.Forall₂ R xs vs)
    (hkeep : ∀ x ∈ xs, ∀ v ∈ vs, R x v → R' x v) : List.Forall₂ R' xs vs := by
  induction h with
  | nil => exact .nil
  | cons hfirst _ ih =>
      refine .cons (hkeep _ List.mem_cons_self _ List.mem_cons_self hfirst) (ih fun x hx v hv => ?_)
      exact hkeep x (List.mem_cons_of_mem _ hx) v (List.mem_cons_of_mem _ hv)

end Lists

theorem Agrees.lt (h : Agrees made ρ xs vs m) (hid : Live made xs id) : id < made.length := by
  obtain ⟨x, hx, -⟩ := h.objects hid
  exact (List.getElem?_eq_some_iff.mp hx).1

/-! ## Values and keys -/

theorem Renders.isNil (h : Renders m ρ x v) : v.isNil = true ↔ x = .nil := by
  cases h <;> simp [Value.isNil]

/-- A value changes neither when strings and boxes are kept nor when other objects move. -/
theorem Renders.keep (h : Renders m ρ x v)
    (hboxed : ∀ {slot i}, v = .boxed slot → m.heap.boxed.get? slot = some i →
      m'.heap.boxed.get? slot = some i)
    (hstrings : ∀ {id : Nat} {bytes}, m.strings.strings[id]? = some bytes →
      m'.strings.strings[id]? = some bytes)
    (hρ : ∀ id, x = .object id → ρ' id = ρ id) : Renders m' ρ' x v := by
  cases h with
  | nil => exact .nil
  | bool => exact .bool _
  | int => exact .int _
  | boxed h => exact .boxed (hboxed rfl h)
  | number => exact .number _
  | text h => exact .text (hstrings h)
  | light => exact .light _
  | object id => exact hρ id rfl ▸ .object id

theorem Names.keep (h : Names m ρ k key)
    (hstrings : ∀ {id : Nat} {bytes}, m.strings.strings[id]? = some bytes →
      m'.strings.strings[id]? = some bytes)
    (hρ : ∀ id, k = .object id → ρ' id = ρ id) : Names m' ρ' k key := by
  cases h with
  | bool => exact .bool _
  | int => exact .int _
  | number => exact .number _
  | text h => exact .text (hstrings h)
  | light => exact .light _
  | object id => exact hρ id rfl ▸ .object id

/-- A datum has one key. -/
theorem Names.unique {key' : Key} (hpool : m.strings.Sound) (h : Names m ρ k key)
    (h' : Names m ρ k key') : key = key' := by
  cases h with
  | text h =>
      cases h' with
      | text h' => rw [hpool.distinct h h']
  | bool | int | number | light | object => cases h'; rfl

/-- A key stands for one datum, if objects are in different places. -/
theorem Names.injective {k' : Datum} (h : Names m ρ k key) (h' : Names m ρ k' key)
    (hρ : ∀ {i j}, k = .object i → k' = .object j → ρ i = ρ j → i = j) : k = k' := by
  cases h with
  | text h =>
      cases h' with
      | text h' => rw [Option.some.inj (h.symm.trans h')]
  | bool | int | number | light => cases h'; rfl
  | object i =>
      generalize hkey : Key.object (ρ i) = key at h'
      cases h' with
      | object j => rw [hρ rfl rfl (Key.object.inj hkey)]
      | bool | int | number | text | light => cases hkey

/-- The value of a datum that is a key names that key. -/
theorem Renders.key? (h : Renders m ρ x v) (hx : x.key? = some k)
    (hobject : ∀ id, x = .object id → (ρ id).kind ≠ .boxed) :
    ∃ key, m.heap.key? v = some key ∧ Names m ρ k key := by
  cases h with
  | nil => cases hx
  | bool b =>
      cases hx
      exact ⟨.boolean b, rfl, .bool b⟩
  | int i =>
      cases hx
      exact ⟨.integer i, rfl, .int i⟩
  | boxed hslot =>
      cases hx
      refine ⟨.integer _, ?_, .int _⟩
      rw [Heap.key?, Heap.toInt?, hslot]
  | number d =>
      have hkey : m.heap.key? (.float d) = Key.ofValue? (.float d) := rfl
      rw [hkey, Key.ofValue?]
      rw [Datum.key?] at hx
      cases hnan : d.isNaN with
      | true => simp [hnan] at hx
      | false =>
          simp only [hnan, Bool.false_eq_true, if_false] at hx ⊢
          cases hint : d.toInt64? with
          | none =>
              rw [hint] at hx
              cases hx
              exact ⟨_, rfl, .number d⟩
          | some i =>
              rw [hint] at hx
              cases hx
              exact ⟨_, rfl, .int i⟩
  | text hid =>
      cases hx
      exact ⟨_, rfl, .text hid⟩
  | light a =>
      cases hx
      exact ⟨.light a, rfl, .light a⟩
  | object id =>
      cases hx
      refine ⟨.object (ρ id), ?_, .object id⟩
      have hkind := hobject id rfl
      rcases hr : ρ id with ⟨kind, slot⟩
      rw [hr] at hkind
      cases kind with
      | boxed => cases hkind rfl
      | table | function | userdata => rfl

/-! ## Tables and maps -/

theorem tabulates_empty : Tabulates m ρ ∅ {} :=
  ⟨Table.dense_empty, rfl, fun h => by simp at h, fun h => by simp at h, fun {key} h => by
    cases key with
    | integer i =>
        have hnil : ({} : Table).getInt i = .nil := by
          rw [Table.getInt_entry (fun h => by have := h.2; simp at this; omega)]
          rfl
        change (Table.getInt {} i).isNil = false at h
        rw [hnil] at h
        cases h
    | string | float | object | foreign | boolean | light => cases h⟩

/-- Storing in both a table and a map. -/
theorem Tabulates.insert (h : Tabulates m ρ es t) (hpool : m.strings.Sound) (hk : Names m ρ k key)
    (hx : Renders m ρ x v) (hne : x ≠ .nil)
    (hρ : ∀ {i j}, k = .object i → (AList.lookup (.object j) es).isSome = true → ρ i = ρ j → i = j) :
    Tabulates m ρ (es.insert k x) (t.set key v) := by
  have hv : v.isNil = false := by
    rw [← Bool.not_eq_true, hx.isNil]
    exact hne
  obtain ⟨hdense, hget⟩ := h.dense.set key hv
  -- Another datum has another key.
  have hother : ∀ {k' key'}, (es.lookup k').isSome = true → Names m ρ k' key' → k' ≠ k → key' ≠ key := by
    rintro k' key' hsome hk' hkk rfl
    exact hkk (hk.injective hk' fun hi hj => hρ hi (hj ▸ hsome)).symm
  refine ⟨hdense, Table.metatable_set.trans h.plain, fun {k' x'} hl => ?_, fun {k' x'} hl => ?_,
    fun {key'} hkey => ?_⟩
  · by_cases hkk : k' = k
    · subst hkk
      rw [AList.lookup_insert] at hl
      exact Option.some.inj hl ▸ hne
    · rw [AList.lookup_insert_ne hkk] at hl
      exact h.values hl
  · by_cases hkk : k' = k
    · subst hkk
      rw [AList.lookup_insert] at hl
      refine ⟨key, hk, ?_⟩
      rw [hget, if_pos rfl]
      exact Option.some.inj hl ▸ hx
    · rw [AList.lookup_insert_ne hkk] at hl
      obtain ⟨key', hk', hx'⟩ := h.present hl
      refine ⟨key', hk', ?_⟩
      rw [hget, if_neg (hother (by rw [hl]; rfl) hk' hkk)]
      exact hx'
  · rw [hget] at hkey
    by_cases hkk : key' = key
    · exact ⟨k, by rw [AList.lookup_insert]; rfl, hkk ▸ hk⟩
    · rw [if_neg hkk] at hkey
      obtain ⟨k', hsome, hk'⟩ := h.only hkey
      refine ⟨k', ?_, hk'⟩
      rw [AList.lookup_insert_ne]
      · exact hsome
      · rintro rfl
        exact hkk (hk'.unique hpool hk)

/-- The border of a table is that of the map. -/
theorem Tabulates.border (h : Tabulates m ρ es t) : es.border = t.length := by
  rw [h.dense.length_eq]
  refine Entries.border_eq (fun j hj => ?_) ?_
  · have hitem : (t.get (.integer (j + 1 : Nat))).isNil = false :=
      h.dense.getInt_item (by omega) (by omega)
    obtain ⟨k, hsome, hk⟩ := h.only hitem
    cases hk
    exact hsome
  · rw [Option.eq_none_iff_forall_ne_some]
    intro x hl
    obtain ⟨key, hk, hx⟩ := h.present hl
    cases hk
    have hnil : t.get (.integer (t.array.size + 1 : Nat)) = .nil := h.dense.getInt_next
    rw [hnil] at hx
    exact h.values hl (hx.isNil.mp rfl)

/-- Appending to both. -/
theorem Tabulates.append (h : Tabulates m ρ es t) (hpool : m.strings.Sound) (hx : Renders m ρ x v) :
    Tabulates m ρ (es.append x) (t.set (.integer (t.length + 1)) v) := by
  unfold Entries.append
  split
  · rename_i hnil
    have hv := hx.isNil.mpr hnil
    cases hx <;> cases hv
    rw [h.dense.length_eq, h.dense.set_nil]
    exact h
  · rename_i hne
    rw [h.border]
    exact h.insert hpool (.int _) hx hne nofun

/-- A map stays that of a table when strings and boxes are kept. -/
theorem Tabulates.keep (h : Tabulates m ρ es t)
    (hboxed : ∀ {key slot i}, t.get key = .boxed slot → m.heap.boxed.get? slot = some i →
      m'.heap.boxed.get? slot = some i)
    (hstrings : ∀ {id : Nat} {bytes}, m.strings.strings[id]? = some bytes →
      m'.strings.strings[id]? = some bytes)
    (hρ : ∀ id, es.Mentions id → ρ' id = ρ id) : Tabulates m' ρ' es t := by
  have hname : ∀ {k key}, (es.lookup k).isSome = true → Names m ρ k key → Names m' ρ' k key :=
    fun hk hkey => hkey.keep hstrings fun id hid => hρ id (.inl (hid ▸ hk))
  refine ⟨h.dense, h.plain, h.values, fun {k x} hl => ?_, fun {key} hkey => ?_⟩
  · obtain ⟨key, hkey, hx⟩ := h.present hl
    exact ⟨key, hname (by rw [hl]; rfl) hkey,
      hx.keep hboxed hstrings fun id hid => hρ id (.inr ⟨k, hid ▸ hl⟩)⟩
  · obtain ⟨k, hk, hkey⟩ := h.only hkey
    exact ⟨k, hk, hname hk hkey⟩

/-! ## Storing -/

theorem tables_setEntry {slot s : Nat} : (m.setEntry slot key v).heap.tables.get? s =
    if s = slot then (m.heap.tables.get? s).map (·.set key v) else m.heap.tables.get? s :=
  Arena.get?_modify

/-- Storing in a table leaves everything else alone. -/
theorem contents?_setEntry {slot : Nat} {r : Ref} (hr : r ≠ ⟨.table, slot⟩) :
    (m.setEntry slot key v).heap.contents? r = m.heap.contents? r := by
  obtain ⟨kind, s⟩ := r
  cases kind with
  | table =>
      have hs : s ≠ slot := fun heq => hr (heq ▸ rfl)
      change ((m.setEntry slot key v).heap.tables.get? s).map _ = _
      rw [tables_setEntry, if_neg hs]
      rfl
  | function | userdata | boxed => rfl

/-! ## What is held -/

/-- What a table reads is what it holds. -/
theorem holds_get {slot : Nat} (ht : m.heap.tables.get? slot = some t)
    (hget : (t.get key).isNil = false) : m.heap.Holds ⟨.table, slot⟩ (t.get key) := by
  rcases Table.mem_of_get hget with hitem | hentry
  · exact .item ht hitem
  · exact .entry ht hentry

/-- A table holds the objects of its map. -/
theorem Tabulates.holds {slot : Nat} (h : Tabulates m ρ es t) (ht : m.heap.tables.get? slot = some t)
    (hid : es.Mentions id) : m.heap.Holds ⟨.table, slot⟩ (.object (ρ id)) := by
  rcases hid with hkey | ⟨k, hvalue⟩
  · obtain ⟨x, hl⟩ := Option.isSome_iff_exists.mp hkey
    obtain ⟨key, hk, hx⟩ := h.present hl
    have hget : (t.get key).isNil = false := by
      rw [← Bool.not_eq_true, hx.isNil]
      exact h.values hl
    cases hk
    exact .objectKey ht (Table.mem_of_entryValue hget) hget
  · obtain ⟨key, -, hx⟩ := h.present hvalue
    generalize hget : t.get key = v at hx
    cases hx
    exact hget ▸ holds_get ht (by rw [hget]; rfl)

/-- An object stays what was made when its contents, the boxes that it holds, and strings are kept. -/
theorem Makes.keep {what : Made} {r : Ref} (h : Makes m ρ what r)
    (hcontents : m'.heap.contents? r = m.heap.contents? r)
    (hboxed : ∀ {slot i}, m.heap.Holds r (.boxed slot) → m.heap.boxed.get? slot = some i →
      m'.heap.boxed.get? slot = some i)
    (hstrings : ∀ {id : Nat} {bytes}, m.strings.strings[id]? = some bytes →
      m'.strings.strings[id]? = some bytes)
    (hρ : ∀ {es}, what = .table es → ∀ id, es.Mentions id → ρ' id = ρ id) : Makes m' ρ' what r := by
  cases h with
  | function hf =>
      exact .function (Heap.contents?_function.mp (hcontents.trans (Heap.contents?_function.mpr hf)))
  | table ht h =>
      refine .table (Heap.contents?_table.mp (hcontents.trans (Heap.contents?_table.mpr ht)))
        (h.keep (fun {key slot i} hget hi => ?_) hstrings (hρ rfl))
      exact hboxed (hget ▸ holds_get ht (by rw [hget]; rfl)) hi

theorem Makes.contents {what : Made} {r : Ref} (h : Makes m ρ what r) : m.heap.contents? r ≠ none := by
  cases h with
  | function hf =>
      rw [Heap.contents?_function.mpr hf]
      exact Option.some_ne_none _
  | table ht =>
      rw [Heap.contents?_table.mpr ht]
      exact Option.some_ne_none _

theorem Makes.kind {what : Made} {r : Ref} (h : Makes m ρ what r) : r.kind ≠ .boxed := by
  cases h <;> exact nofun

/-- Only heap and strings count. -/
theorem Agrees.of_eq (h : Agrees made ρ xs vs m) (heap : m'.heap = m.heap)
    (strings : m'.strings = m.strings) : Agrees made ρ xs vs m' := by
  refine ⟨forall₂_keep h.values fun x _ v _ hx => ?_, fun hid => ?_, h.distinct⟩
  · exact hx.keep (fun _ hi => heap ▸ hi) (fun hs => strings ▸ hs) fun _ _ => rfl
  · obtain ⟨what, hwhat, hmakes⟩ := h.objects hid
    exact ⟨what, hwhat, hmakes.keep (by rw [heap]) (fun _ hi => heap ▸ hi) (fun hs => strings ▸ hs)
      fun _ _ _ => rfl⟩

/-- One value more, which is no new object. -/
theorem Agrees.push (h : Agrees made ρ xs vs m) (hx : Renders m ρ x v)
    (hold : ∀ id, x = .object id → Live made xs id) : Agrees made ρ (xs ++ [x]) (vs ++ [v]) m :=
  ⟨forall₂_concat.mpr ⟨h.values, hx⟩, fun hid => h.objects (hid.of_push hold),
    fun hi hj => h.distinct (hi.of_push hold) (hj.of_push hold)⟩

/-- One value more, which is a new object. -/
theorem Agrees.make {what : Made} {r : Ref} (h : Agrees made ρ xs vs m)
    (hnew : ∀ {id}, Live made xs id → ρ id ≠ r) (hmakes : ∀ ρ, Makes m ρ what r)
    (hbare : ∀ es, what = .table es → es = ∅) :
    Agrees (made ++ [what]) (Function.update ρ made.length r) (xs ++ [.object made.length])
      (vs ++ [.object r]) m := by
  have hlive := fun {id} (hid : Live _ _ id) => hid.of_make h.lt hbare
  have hself : Function.update ρ made.length r made.length = r := Function.update_self ..
  have hold : ∀ {id}, Live made xs id → Function.update ρ made.length r id = ρ id :=
    fun hid => Function.update_of_ne (Nat.ne_of_lt (h.lt hid)) ..
  refine ⟨forall₂_concat.mpr ⟨forall₂_keep h.values fun x hx v _ hv => ?_, ?_⟩,
    fun {id} hid => ?_, fun {i j} hi hj heq => ?_⟩
  · exact hv.keep (fun _ hi => hi) (fun hs => hs) fun id hid => hold (.root (hid ▸ hx))
  · have hobject : Renders m (Function.update ρ made.length r) _ _ := .object made.length
    rw [hself] at hobject
    exact hobject
  · rcases hlive hid with rfl | hid
    · exact ⟨what, List.getElem?_concat_length, by rw [hself]; exact hmakes _⟩
    · obtain ⟨other, hother, hmakes⟩ := h.objects hid
      refine ⟨other, ?_, ?_⟩
      · rw [List.getElem?_append_left (h.lt hid)]
        exact hother
      · rw [hold hid]
        exact hmakes.keep rfl (fun _ hi => hi) (fun hs => hs)
          fun hes _ hm => hold (.step hid (hes ▸ hother) hm)
  · rcases hlive hi with rfl | hi <;> rcases hlive hj with rfl | hj
    · rfl
    · rw [hself, hold hj] at heq
      exact absurd heq.symm (hnew hj)
    · rw [hself, hold hi] at heq
      exact absurd heq (hnew hi)
    · rw [hold hi, hold hj] at heq
      exact h.distinct hi hj heq

/-- One entry more in a table that was made. -/
theorem Agrees.setEntry {slot : Nat} (h : Agrees made ρ xs vs m) (hid : Live made xs id)
    (hes : made[id]? = some (.table es)) (hslot : ρ id = ⟨.table, slot⟩)
    (ht : m.heap.tables.get? slot = some t)
    (hmentions : ∀ {j}, es'.Mentions j → es.Mentions j ∨ .object j ∈ xs)
    (htab : Tabulates m ρ es' (t.set key v)) :
    Agrees (made.set id (.table es')) ρ xs vs (m.setEntry slot key v) := by
  have hlive := fun {j} (hj : Live _ _ j) => hj.of_set hes hmentions
  refine ⟨forall₂_keep h.values fun x _ v _ hv => ?_, fun {j} hj => ?_,
    fun hi hj => h.distinct (hlive hi) (hlive hj)⟩
  · exact hv.keep (fun _ hi => hi) (fun hs => hs) fun _ _ => rfl
  · by_cases hj' : j = id
    · subst hj'
      refine ⟨_, List.getElem?_set_self (List.getElem?_eq_some_iff.mp hes).1, ?_⟩
      rw [hslot]
      refine .table ?_ (htab.keep (fun _ hi => hi) (fun hs => hs) fun _ _ => rfl)
      rw [tables_setEntry, if_pos rfl, ht]
      rfl
    · obtain ⟨what, hwhat, hmakes⟩ := h.objects (hlive hj)
      refine ⟨what, ?_, hmakes.keep (contents?_setEntry ?_) (fun _ hi => hi) (fun hs => hs)
        fun _ _ _ => rfl⟩
      · rw [List.getElem?_set_ne (Ne.symm hj')]
        exact hwhat
      · rw [← hslot]
        exact fun heq => hj' (h.distinct (hlive hj) hid heq)

/-- Where values are roots, all objects that data lead to are reached. -/
theorem Agrees.reached (h : Agrees made ρ xs vs m) (hroots : ∀ v ∈ vs, m.IsRoot v)
    (hid : Live made xs id) : m.Reached (ρ id) := by
  induction hid with
  | @root id hx =>
      obtain ⟨v, hv, hx⟩ := exists_value h.values hx
      cases hx
      exact .start (hroots _ hv) rfl
  | step hid hes hmentions ih =>
      obtain ⟨what, hwhat, hmakes⟩ := h.objects hid
      rw [hes] at hwhat
      obtain rfl := Option.some.inj hwhat
      generalize ρ _ = r at hmakes ih
      cases hmakes with
      | table ht htab => exact .step ih (htab.holds ht hmentions) rfl

end Machine

end ScriptHost
