import ScriptHost.Proofs.Integrity
import ScriptHost.Proofs.Lawful.Table
import ScriptHost.Proofs.Places
import ScriptHost.Proofs.States

/-! # Walking through a table

A host walks through a table with calls of `next`, from nil on and then each time from the key that the
call before left on the stack. Keys are normalized when entries are stored, so the value that stands for a
key on the stack names this key again in the next call: a float that is an integer is no key, and an
integer that does not fit inline comes back in a new box.
-/

namespace ScriptHost

/-! ## Normalized keys -/

/-- Keys that values name: no float among them is an integer or NaN, and no object a box. -/
def Key.Normal : Key → Prop
  | .float d => d.isNaN = false ∧ d.toInt64? = none
  | .object r => r.kind ≠ .boxed
  | .foreign w => ∀ r, Ref.ofWord? w = some r → r.kind ≠ .boxed
  | .integer _ | .string _ | .boolean _ | .light _ => True

/-- An integer that does not fit inline is the only key without a value of its own. -/
theorem Key.toValue_eq_error {key : Key} {n : Int} :
    key.toValue = .error n ↔ key = .integer n ∧ Value.fitsInline n = false := by
  cases key with
  | integer i =>
      cases hfits : Value.fitsInline i with
      | true =>
          simp only [toValue, hfits, if_true, reduceCtorEq, false_iff]
          rintro ⟨⟨⟩, hnot⟩
          exact Bool.noConfusion (hfits.symm.trans hnot)
      | false =>
          simp only [toValue, hfits, Bool.false_eq_true, if_false, Except.error.injEq, Key.integer.injEq]
          exact ⟨fun h => ⟨h, h ▸ hfits⟩, And.left⟩
  | string | float | object | foreign | boolean | light => simp [toValue]

theorem Key.Normal.toValue_ne_boxed {key : Key} (h : key.Normal) (b : Nat) :
    key.toValue ≠ .ok (.boxed b) := by
  intro hvalue
  cases key with
  | object r =>
      cases hvalue
      exact h rfl
  | integer i =>
      simp only [toValue] at hvalue
      split at hvalue <;> cases hvalue
  | string | float | foreign | boolean | light => cases hvalue

namespace Heap

variable {h : Heap Native} {v : Value} {key : Key} {r : Ref}

/-- The box of a value, if it refers to one, is there. A program that reads a freed box is aborted, so only
    such values can be looked at as keys. -/
def Readable (h : Heap Native) (v : Value) : Prop :=
  ∀ r, v.ref? = some r → r.kind = .boxed → h.contents? r ≠ none

/-- A box that is there names its integer, whatever word leads to it. -/
theorem toInt?_of_boxed (hv : h.Readable v) (hr : v.ref? = some r) (hkind : r.kind = .boxed) :
    h.toInt? v ≠ none := by
  have hthere := hv r hr hkind
  obtain ⟨kind, slot⟩ := r
  obtain rfl : kind = .boxed := hkind
  simp only [contents?, ne_eq, Option.map_eq_none_iff] at hthere
  cases v with
  | object r =>
      obtain rfl := Option.some.inj hr
      exact hthere
  | foreign w =>
      change Ref.ofWord? w = _ at hr
      simpa only [toInt?, hr] using hthere
  | nil | bool | float | int | string | light => cases hr

theorem normal_key? (hkey : h.key? v = some key) (hv : h.Readable v) : key.Normal := by
  unfold key? at hkey
  split at hkey
  · obtain rfl := Option.some.inj hkey
    trivial
  · rename_i hint
    have hbox : ∀ r, v.ref? = some r → r.kind ≠ .boxed := fun r hr hkind =>
      toInt?_of_boxed hv hr hkind hint
    cases v with
    | object r =>
        obtain rfl := Option.some.inj hkey
        exact hbox r rfl
    | foreign w =>
        obtain rfl := Option.some.inj hkey
        exact hbox
    | float d =>
        simp only [Key.ofValue?] at hkey
        split at hkey
        · cases hkey
        · rename_i hnan
          split at hkey
          · cases hkey
            trivial
          · rename_i hnone
            cases hkey
            exact ⟨by simpa using hnan, hnone⟩
    | nil => cases hkey
    | bool | int | string | light =>
        cases hkey
        trivial

/-- The value of a normalized key names the key. -/
theorem key?_toValue (hkey : key.Normal) (hv : key.toValue = .ok v) : h.key? v = some key := by
  cases key with
  | integer i =>
      simp only [Key.toValue] at hv
      split at hv <;> cases hv
      rfl
  | float d =>
      obtain ⟨hnan, hint⟩ := hkey
      have hcanonical : d.canonical = d := by simp [Double.canonical, hnan]
      cases hv
      simp [key?, toInt?, Value.ofDouble, hcanonical, Key.ofValue?, hnan, hint]
  | object r =>
      obtain ⟨kind, slot⟩ := r
      cases hv
      cases kind with
      | boxed => exact absurd rfl hkey
      | table | function | userdata => rfl
  | foreign w =>
      cases hv
      have hnone : h.toInt? (.foreign w) = none := by
        simp only [toInt?]
        split
        · rename_i slot hw
          exact absurd rfl (hkey _ hw)
        · rfl
      simp [key?, hnone, Key.ofValue?]
  | string | boolean | light =>
      cases hv
      rfl

end Heap

namespace Machine

variable {m m' : Machine} {slot : Nat} {key : Key} {v k : Value} {i : StackIndex} {s : Array Value}

/-- The value of a key names it, and needs a box if the key is an integer that does not fit inline. A new
    box is all that is made. -/
theorem keyValue_names (hm : m.heap.Sound) (hkey : key.Normal) : ∃ k heap,
    m.keyValue key = (k, { m with heap }) ∧ heap.key? k = some key ∧
    heap.tables = m.heap.tables ∧ heap.functions = m.heap.functions ∧
    ((∃ b, k = .boxed b) ↔ ∃ n, key = .integer n ∧ Value.fitsInline n = false) := by
  unfold keyValue
  split
  · rename_i k hk
    refine ⟨k, m.heap, rfl, Heap.key?_toValue hkey hk, rfl, rfl, ?_⟩
    constructor
    · rintro ⟨b, rfl⟩
      exact absurd hk (hkey.toValue_ne_boxed b)
    · rintro ⟨n, hn⟩
      rw [Key.toValue_eq_error.mpr hn] at hk
      cases hk
  · rename_i n hn
    obtain ⟨rfl, hfits⟩ := Key.toValue_eq_error.mp hn
    have hbox := Arena.get?_insert (a := m.heap.boxed) (x := n) (s := (m.heap.boxed.insert n).1) hm.boxed
    rw [if_pos rfl] at hbox
    refine ⟨.boxed (m.heap.newBoxed n).1, (m.heap.newBoxed n).2, ?_, ?_, rfl, rfl, ?_⟩
    · simp only [ofInt, Heap.ofInt, hfits]
      rfl
    · have hint : (m.heap.newBoxed n).2.toInt? (.boxed (m.heap.newBoxed n).1) = some n := hbox
      rw [Heap.key?, hint]
    · simp [hfits]

/-! ## Stores -/

theorem table_setEntry (m : Machine) (slot : Nat) (key : Key) (v : Value) :
    (m.setEntry slot key v).heap.table slot = (m.heap.table slot).set key v ∨
      (m.setEntry slot key v).heap.table slot = {} := by
  simp only [setEntry, Heap.table, Heap.modifyTable, Arena.get?_modify, if_true]
  cases m.heap.tables.get? slot with
  | none => exact .inr rfl
  | some t => exact .inl rfl

theorem table_of_get {t : Table} (hthere : m.heap.tables.get? slot = some t) : m.heap.table slot = t := by
  rw [Heap.table, hthere]
  rfl

theorem table_setEntry_get {t : Table} {key : Key} {v : Value} (hthere : m.heap.tables.get? slot = some t) :
    (m.setEntry slot key v).heap.table slot = t.set key v := by
  refine table_of_get ?_
  rw [setEntry, Heap.modifyTable, Arena.get?_modify, if_pos rfl, hthere]
  rfl

theorem Reachable.setEntry {key : Key} {v : Value} (hm : m.Reachable) : (m.setEntry slot key v).Reachable :=
  hm.moves (.single (.change (.heap _ (.entry _ _ _))))

/-- The table in a slot has the same array and entries. -/
def SameEntries (slot : Nat) (m m' : Machine) : Prop :=
  (m'.heap.table slot).array = (m.heap.table slot).array ∧
    (m'.heap.table slot).entries = (m.heap.table slot).entries

/-- A store into the table in a slot, under a value, an integer or a string. -/
inductive Store (slot : Nat) (m : Machine) : Machine → Prop where
  | value {name v : Value} {m'} : m.heap.Readable name → Op.rawStore slot name v m = .ok () m' →
      Store slot m m'
  | integer (n : Int) (v) : Store slot m (m.setEntry slot (.integer n) v)
  | string (id : StringId) (v) : Store slot m (m.setEntry slot (.string id) v)

/-- A machine where the table in a slot was empty and then filled by stores, whatever else happened. -/
inductive Filled (slot : Nat) : Machine → Prop where
  | empty {m : Machine} : m.Reachable → (m.heap.table slot).array = #[] →
      (m.heap.table slot).entries = [] → Filled slot m
  | store {m m' : Machine} : Filled slot m → Store slot m m' → Filled slot m'
  | rest {m m' : Machine} : Filled slot m → Moves m m' → SameEntries slot m m' → Filled slot m'

/-- Every store is one under a normalized key. -/
theorem Store.eq_setEntry (h : Store slot m m') :
    ∃ key v, key.Normal ∧ m' = m.setEntry slot key v := by
  cases h with
  | integer n v => exact ⟨.integer n, v, trivial, rfl⟩
  | string id v => exact ⟨.string id, v, trivial, rfl⟩
  | @value name v _ hname hrun =>
      rw [Op.rawStore, Op.bind_ok Op.run_get] at hrun
      cases hkey : m.heap.key? name with
      | none => cases name <;> simp [hkey] at hrun
      | some key =>
          -- nil is refused before its key is looked at
          have hnil : name ≠ .nil := fun hnil => by
            rw [hnil] at hkey
            cases hkey
          simp only [hkey] at hrun
          cases hrun
          exact ⟨key, v, Heap.normal_key? hkey hname, rfl⟩

theorem Filled.reachable (h : Filled slot m) : m.Reachable := by
  induction h with
  | empty hm => exact hm
  | store _ hstore ih =>
      obtain ⟨key, v, -, rfl⟩ := hstore.eq_setEntry
      exact ih.setEntry
  | rest _ hmoves _ ih => exact ih.moves hmoves

/-- Array and entries of a filled table are apart, and its keys are normalized. -/
theorem Filled.parted (h : Filled slot m) : (m.heap.table slot).Parted ∧
    ∀ e ∈ (m.heap.table slot).entries, e.1.Normal := by
  induction h with
  | empty _ harray hentries =>
      refine ⟨⟨by simp [hentries], by simp [hentries], ?_⟩, by simp [hentries]⟩
      rw [harray]
      exact Table.parted_empty.trimmed
  | @store m _ _ hstore ih =>
      obtain ⟨key, v, hkey, rfl⟩ := hstore.eq_setEntry
      rcases table_setEntry m slot key v with hset | hnone
      · rw [hset]
        refine ⟨ih.1.set key v, fun e he => ?_⟩
        rcases (Table.keeps_set _ _ _).2 e he with rfl | he
        · exact hkey
        · exact ih.2 e he
      · rw [hnone]
        exact ⟨Table.parted_empty, by simp⟩
  | rest _ _ hsame ih =>
      obtain ⟨hparted, hnormal⟩ := ih
      rw [hsame.2]
      exact ⟨⟨hsame.2 ▸ hparted.nodup, hsame.1 ▸ hsame.2 ▸ hparted.outside, hsame.1 ▸ hparted.trimmed⟩,
        hnormal⟩

theorem Filled.normal (h : Filled slot m) {e : Key × Value} (he : e ∈ (m.heap.table slot).places) :
    e.1.Normal := by
  rcases List.mem_append.mp he with he | he
  · obtain ⟨n, hn, -⟩ := Table.mem_arrayEntries.mp he
    rw [hn]
    trivial
  · exact h.parted.2 e he

/-! ## A call -/

theorem setIfInBounds_push (s : Array Value) (k v : Value) :
    (s.push k).setIfInBounds ((s.push k).size - 1) v = s.push v := by
  rw [← Array.toList_inj]
  simp [List.set_append_right]

/-- An index names a table, also if nil takes the place of the value on top, which may be a key that is
    the table itself. -/
def NamesBelow (m : Machine) (i : StackIndex) (slot : Nat) : Prop :=
  (m.putAt (m.stack.size - 1) .nil).value (m.absolute i) = .table slot

theorem getElem?_of_putAt_nil {p q : Nat} {r : Ref}
    (h : (m.putAt p .nil).stack[q]? = some (Value.object r)) : m.stack[q]? = some (Value.object r) := by
  simp only [putAt, Array.getElem?_setIfInBounds] at h
  split at h
  · split at h <;> cases h
  · exact h

theorem position?_putAt {p : Nat} : (m.putAt p v).position? i = m.position? i := by
  have hsize : (m.putAt p v).stack.size = m.stack.size := Array.size_setIfInBounds ..
  have hbase : (m.putAt p v).base = m.base := rfl
  have htop : (m.putAt p v).top = m.top := by rw [top, top, hsize, hbase]
  cases i <;> simp only [position?, htop, hbase, hsize]

theorem runningFunction?_of_putAt_nil {p f : Nat} (h : (m.putAt p .nil).runningFunction? = some f) :
    m.runningFunction? = some f := by
  unfold runningFunction? at h ⊢
  split at h
  · cases h
  · rename_i frame _ hframes
    rw [show m.frames = _ from hframes]
    split at h
    · rename_i hfunction
      simp only [getElem?_of_putAt_nil hfunction]
      exact h
    · cases h

theorem value_of_putAt_nil {p : Nat} (h : (m.putAt p .nil).value i = .table slot) :
    m.value i = .table slot := by
  have hsome : ∀ o : Option Value, o.getD .nil = .table slot → o = some (.table slot) := by
    rintro (_ | v) hv
    · cases hv
    · exact congrArg some hv
  cases i with
  | registry | environment => exact h
  | upvalue n =>
      have hupvalue := hsome _ h
      change (m.upvalue? n).getD .nil = _
      unfold upvalue? at hupvalue ⊢
      split at hupvalue
      · cases hupvalue
      · rename_i hn
        obtain ⟨f, hf, hget⟩ := Option.bind_eq_some_iff.mp hupvalue
        obtain ⟨function, hfunction, hheap⟩ := Option.bind_eq_some_iff.mp hf
        have hclosure : m.runningFunction?.bind m.heap.function? = some f := by
          rw [runningFunction?_of_putAt_nil hfunction]
          exact hheap
        rw [if_neg hn, hclosure, Option.bind_some, hget]
        rfl
  | fromBottom n | fromTop n =>
      have hq := hsome _ h
      rw [position?_putAt] at hq
      obtain ⟨q, hposition, hget⟩ := Option.bind_eq_some_iff.mp hq
      change ((m.position? _).bind fun p => m.stack[p]?).getD .nil = _
      rw [hposition, Option.bind_some, getElem?_of_putAt_nil hget]
      rfl

/-- Neither the value on top nor a heap with the same functions makes a difference. -/
theorem NamesBelow.change {heap : Heap Native} {k' : Value} (h : m.NamesBelow i slot)
    (hstack : m.stack = s.push k) (hheap : heap.functions = m.heap.functions) :
    ({ m with stack := s.push k', heap } : Machine).NamesBelow i slot := by
  have htop : ({ m with stack := s.push k', heap } : Machine).top = m.top := by
    simp only [top, hstack, Array.size_push]
    rfl
  have habsolute : ({ m with stack := s.push k', heap } : Machine).absolute i = m.absolute i := by
    cases i <;> simp only [absolute, htop]
  unfold NamesBelow at h ⊢
  rw [habsolute]
  simp only [putAt, hstack, setIfInBounds_push] at h ⊢
  generalize m.absolute i = j at h
  cases j with
  | upvalue n =>
      have hupvalue : ({ m with stack := s.push .nil, heap } : Machine).upvalue? n =
          ({ m with stack := s.push .nil } : Machine).upvalue? n := by
        have hf : heap.function? = m.heap.function? := by
          funext slot
          rw [Heap.function?, hheap]
          rfl
        simp only [upvalue?, hf]
        rfl
      change (Machine.upvalue? _ n).getD _ = _ at h ⊢
      rw [hupvalue]
      exact h
  | registry | environment | fromBottom n | fromTop n => exact h

/-- The position from which a call goes on, by the value on top. -/
def startOf (m : Machine) (k : Value) : Option Key := if k.isNil then none else m.heap.key? k

theorem next_eq (hstack : m.stack = s.push k) (hbase : m.base ≤ s.size)
    (hindex : m.value (m.absolute i) = .table slot) :
    Op.next i m =
      match (m.heap.table slot).next (m.startOf k) with
      | some (some (key, v)) =>
          .ok true (((({ m with stack := s } : Machine).keyValue key).2.push
            (({ m with stack := s } : Machine).keyValue key).1).push v)
      | some none => .ok false { m with stack := s }
      | none => .error (.ofFault .invalidTraversalKey) { m with stack := s } := by
  have hm : m = ({ m with stack := s } : Machine).push k := by
    rw [push, ← hstack]
  have htop : m.topValue = k := by
    rw [hm]
    exact topValue_push hbase
  have hpop : m.pop 1 = { m with stack := s } := by
    rw [← pop_push (v := k) hbase, ← hstack]
  rw [Op.next, Op.bind_ok Op.run_get, Op.bind_ok (Op.tableAt_eq hindex),
    Op.bind_ok Op.run_get, Op.bind_ok Op.run_modify, hpop, Op.bind_ok Op.run_get]
  simp only [htop, startOf]
  generalize (m.heap.table slot).next _ = found
  rcases found with _ | _ | ⟨key, v⟩ <;> rfl

/-! ## A walk -/

/-- An entry lies on top of some values, the key below the value. What stands for the key names it, reads
    the value, and is a box if the key is an integer that does not fit inline. -/
structure Shows (slot : Nat) (below : Array Value) (e : Key × Value) (k : Value) (m : Machine) : Prop where
  stack : m.stack = (below.push k).push e.2
  names : m.heap.key? k = some e.1
  reads : m.rawGet slot k = e.2
  boxed : (∃ b, k = .boxed b) ↔ ∃ n, e.1 = .integer n ∧ Value.fitsInline n = false

/-- What may happen between a call that found an entry and the next one. The value is taken from the stack;
    all else may change but the index, the entries of the table and what the key stands for. -/
structure Pause (i : StackIndex) (slot : Nat) (m m' : Machine) : Prop where
  moves : Moves m m'
  stack : m'.stack = m.stack.pop
  base : m'.base = m.base
  index : m'.NamesBelow i slot
  entries : SameEntries slot m m'
  key : m'.heap.key? m'.topValue = m.heap.key? m'.topValue

/-- Calls of `next` that found entries, from nil on, with the machines that they left and the machine that
    is ready for another call. -/
inductive Walk (i : StackIndex) (slot : Nat) (m : Machine) : List Machine → Machine → Prop where
  | start : Walk i slot m [] (m.push .nil)
  | step {visited m₁ m₂ m₃} : Walk i slot m visited m₁ → Op.next i m₁ = .ok true m₂ →
      Pause i slot m₂ m₃ → Walk i slot m (visited ++ [m₂]) m₃

/-- A machine that is ready for a call: a key lies on top, the entries up to it were found and the others
    lie behind it. -/
structure Underway (i : StackIndex) (slot : Nat) (m : Machine) (found : List (Key × Value)) (k : Value)
    (m₁ : Machine) : Prop where
  moves : Moves m m₁
  stack : m₁.stack = m.stack.push k
  base : m₁.base = m.base
  index : m₁.NamesBelow i slot
  entries : SameEntries slot m m₁
  placed : ∀ key ∈ m₁.startOf k, key ∈ (m₁.heap.table slot).places.map (·.1)
  rest : (m₁.heap.table slot).toList =
    found ++ Table.live (Table.behind (m₁.heap.table slot).places (m₁.startOf k))

variable {m₁ m₂ m₃ : Machine} {found : List (Key × Value)}

theorem SameEntries.places (h : SameEntries slot m m') :
    (m'.heap.table slot).places = (m.heap.table slot).places := by
  rw [Table.places, Table.places, h.1, h.2]

theorem SameEntries.toList (h : SameEntries slot m m') :
    (m'.heap.table slot).toList = (m.heap.table slot).toList :=
  congrArg Table.live h.places

theorem underway_start (hm : m.Framed) (hindex : (m.push .nil).NamesBelow i slot) :
    Underway i slot m [] .nil (m.push .nil) where
  moves := (leads_push hm).moves
  stack := rfl
  base := rfl
  index := hindex
  entries := ⟨rfl, rfl⟩
  placed := by simp [startOf, Value.isNil]
  rest := rfl

theorem Underway.filled (h : Underway i slot m found k m₁) (hm : Filled slot m) : Filled slot m₁ :=
  .rest hm h.moves h.entries

/-- A call finds the first of the entries that are left, or ends if there is none. -/
theorem Underway.call (h : Underway i slot m found k m₁) (hm : Filled slot m) :
    (m₁.heap.table slot).toList = found ∧ Op.next i m₁ = .ok false { m₁ with stack := m.stack } ∨
    ∃ e k' heap, (m₁.heap.table slot).toList =
        found ++ e :: Table.live (Table.behind (m₁.heap.table slot).places (some e.1)) ∧
      Op.next i m₁ = .ok true { m₁ with stack := (m.stack.push k').push e.2, heap } ∧
      heap.tables = m₁.heap.tables ∧ heap.functions = m₁.heap.functions ∧
      e.1 ∈ (m₁.heap.table slot).places.map (·.1) ∧
      Shows slot m.stack e k' { m₁ with stack := (m.stack.push k').push e.2, heap } := by
  have hfilled := h.filled hm
  have hbase : m₁.base ≤ m.stack.size := h.base ▸ hm.reachable.framed
  have hcall := next_eq h.stack hbase (value_of_putAt_nil h.index)
  rw [Table.next_of_placed h.placed] at hcall
  have hrest := h.rest
  cases hfirst : Table.firstLive (Table.behind (m₁.heap.table slot).places (m₁.startOf k)) with
  | none =>
      rw [hfirst] at hcall
      have hnone := Table.live_eq_nil.mpr (by simpa using List.find?_eq_none.mp hfirst)
      rw [hnone, List.append_nil] at hrest
      exact .inl ⟨hrest, hcall⟩
  | some e =>
      rw [hfirst] at hcall
      obtain ⟨hmem, hlive⟩ := Table.live_behind_firstLive hfilled.parted.1.nodup_places hfirst
      rw [hlive] at hrest
      obtain ⟨k', heap, hvalue, hnames, htables, hfunctions, hboxed⟩ :=
        keyValue_names (m := { m₁ with stack := m.stack }) hfilled.reachable.heap_sound (hfilled.normal hmem)
      simp only [hvalue] at hcall
      refine .inr ⟨e, k', heap, hrest, hcall, htables, hfunctions, List.mem_map_of_mem hmem, rfl, hnames, ?_,
        hboxed⟩
      have htable : heap.table slot = m₁.heap.table slot := by rw [Heap.table, htables, Heap.table]
      simp only [rawGet, hnames, htable]
      exact hfilled.parted.1.get_of_mem hmem

/-- To go on it is enough to take the value from the stack. -/
theorem Underway.pause (h : Underway i slot m found k m₁) (hm : m.Framed) {heap : Heap Native} {k' v : Value}
    (hfunctions : heap.functions = m₁.heap.functions) :
    Pause i slot { m₁ with stack := (m.stack.push k').push v, heap }
      (({ m₁ with stack := (m.stack.push k').push v, heap } : Machine).pop 1) := by
  have hsize : m₁.base ≤ (m.stack.push k').size := by
    rw [h.base, Array.size_push]
    exact Nat.le_succ_of_le hm
  have hpop : ({ m₁ with stack := (m.stack.push k').push v, heap } : Machine).pop 1 =
      { m₁ with stack := m.stack.push k', heap } := pop_push (m := { m₁ with heap }) hsize
  have hframed : ({ m₁ with stack := (m.stack.push k').push v, heap } : Machine).Framed := by
    change m₁.base ≤ ((m.stack.push k').push v).size
    rw [Array.size_push]
    exact Nat.le_succ_of_le hsize
  have hmoves := (leads_pop (n := 1) hframed).moves
  rw [hpop] at hmoves ⊢
  exact {
    moves := hmoves
    stack := Array.pop_push.symm
    base := rfl
    index := h.index.change h.stack hfunctions
    entries := ⟨rfl, rfl⟩
    key := rfl }

/-- The next call goes on from the key that the last one left. -/
theorem Pause.startOf_eq {below : Array Value} {e : Key × Value} (h : Pause i slot m m')
    (hshows : Shows slot below e k m) (hbase : m.base ≤ below.size) :
    m'.stack = below.push k ∧ m'.startOf k = some e.1 := by
  have hstack : m'.stack = below.push k := by
    rw [h.stack, hshows.stack]
    exact Array.pop_push
  have htop : m'.topValue = k := by
    have hframed : ({ m' with stack := below } : Machine).Framed := by
      change m'.base ≤ below.size
      rwa [h.base]
    have hpush := topValue_push (v := k) hframed
    rw [push] at hpush
    dsimp only at hpush
    rwa [← hstack] at hpush
  have hnames : m'.heap.key? k = some e.1 := by
    have hkey := h.key
    rw [htop] at hkey
    exact hkey.trans hshows.names
  have hnil : k.isNil = false := by
    cases k with
    | nil => cases hnames
    | bool | float | int | string | light | object | foreign => rfl
  refine ⟨hstack, ?_⟩
  rw [startOf, hnil, hnames]
  rfl

theorem Underway.step (h : Underway i slot m found k m₁) (hm : Filled slot m)
    (hrun : Op.next i m₁ = .ok true m₂) (hpause : Pause i slot m₂ m₃) :
    ∃ e k', Shows slot m.stack e k' m₂ ∧ Underway i slot m (found ++ [e]) k' m₃ := by
  have hmoves : Moves m₁ m₂ := by
    have hruns := Op.next_lawful i m₁ (h.filled hm).reachable.framed
    rw [Op.after_ok hrun] at hruns
    exact hruns.moves
  rcases h.call hm with ⟨-, hend⟩ | ⟨e, k', heap, hrest, hcall, htables, -, hplaced, hshows⟩
  · rw [hend] at hrun
    cases hrun
  rw [hcall] at hrun
  cases hrun
  obtain ⟨hstack, hstart⟩ := hpause.startOf_eq hshows (h.base ▸ hm.reachable.framed)
  have htable : heap.table slot = m₁.heap.table slot := by rw [Heap.table, htables, Heap.table]
  have hsame : SameEntries slot m₁ m₃ := ⟨hpause.entries.1.trans (congrArg _ htable),
    hpause.entries.2.trans (congrArg _ htable)⟩
  exact ⟨e, k', hshows, {
    moves := (h.moves.trans hmoves).trans hpause.moves
    stack := hstack
    base := hpause.base.trans h.base
    index := hpause.index
    entries := ⟨hsame.1.trans h.entries.1, hsame.2.trans h.entries.2⟩
    placed := by
      rw [hstart, hsame.places]
      rintro key ⟨⟩
      exact hplaced
    rest := by
      rw [hstart, hsame.toList, hsame.places, hrest, List.append_assoc]
      rfl }⟩

theorem Walk.underway {visited : List Machine} (h : Walk i slot m visited m₁) (hm : Filled slot m)
    (hindex : (m.push .nil).NamesBelow i slot) : ∃ found k, Underway i slot m found k m₁ ∧
      List.Forall₂ (fun e m' => ∃ k, Shows slot m.stack e k m') found visited := by
  induction h with
  | start => exact ⟨[], .nil, underway_start hm.reachable.framed hindex, .nil⟩
  | step _ hrun hpause ih =>
      obtain ⟨found, k, hunderway, hshown⟩ := ih
      obtain ⟨e, k', hshows, hunderway'⟩ := hunderway.step hm hrun hpause
      exact ⟨_, k', hunderway', List.rel_append hshown (.cons ⟨k', hshows⟩ .nil)⟩

theorem namesBelow_push_nil (h : (m.push .nil).value ((m.push .nil).absolute i) = .table slot) :
    (m.push .nil).NamesBelow i slot := by
  have hput : (m.push .nil).putAt ((m.push .nil).stack.size - 1) .nil = m.push .nil := by
    simp only [putAt, push, setIfInBounds_push]
  rw [NamesBelow, hput]
  exact h

/-- Walking through a table that is only read comes to each entry that has a value once, with the value
    that is stored under it, and then ends; no call fails. A call that finds an entry leaves one value more
    on the stack, the last call one less. What it leaves for the key reads the same entry. -/
theorem Filled.walk_complete (hm : Filled slot m)
    (hindex : (m.push .nil).value ((m.push .nil).absolute i) = .table slot) {visited : List Machine}
    (h : Walk i slot m visited m₁) :
    ((m.heap.table slot).toList.map (·.1)).Nodup ∧
    (∀ key v, (key, v) ∈ (m.heap.table slot).toList ↔ (m.heap.table slot).get key = v ∧ v.isNil = false) ∧
    (∃ k, m₁.stack = m.stack.push k) ∧
    List.Forall₂ (fun e m' => ∃ k, Shows slot m.stack e k m')
      ((m.heap.table slot).toList.take visited.length) visited ∧
    (∀ e, (m.heap.table slot).toList[visited.length]? = some e → ∃ m₂ k,
      Op.next i m₁ = .ok true m₂ ∧ Shows slot m.stack e k m₂ ∧ Pause i slot m₂ (m₂.pop 1)) ∧
    ((m.heap.table slot).toList[visited.length]? = none → ∃ m₂,
      Op.next i m₁ = .ok false m₂ ∧ m₂.stack = m.stack) := by
  obtain ⟨found, k, hunderway, hshown⟩ := h.underway hm (namesBelow_push_nil hindex)
  have hparted := hm.parted.1
  have hlength : found.length = visited.length := hshown.length_eq
  have hlist : (m₁.heap.table slot).toList = (m.heap.table slot).toList := hunderway.entries.toList
  have hfound : (m.heap.table slot).toList.take visited.length = found := by
    rw [← hlist, hunderway.rest, ← hlength, List.take_left]
  refine ⟨hparted.nodup_liveKeys, ?_, ⟨k, hunderway.stack⟩, hfound ▸ hshown, ?_, ?_⟩
  · intro key v
    rw [← Table.live_places, Table.mem_live]
    constructor
    · rintro ⟨hmem, hv⟩
      exact ⟨hparted.get_of_mem hmem, hv⟩
    · rintro ⟨rfl, hv⟩
      obtain ⟨v, hmem, hv'⟩ := Table.mem_liveKeys.mp (hparted.mem_liveKeys.mpr hv)
      exact ⟨hparted.get_of_mem hmem ▸ hmem, hv⟩
  · intro e he
    rcases hunderway.call hm with ⟨hend, -⟩ | ⟨e', k', heap, hrest, hcall, -, hfunctions, -, hshows⟩
    · rw [← hlist, hend, ← hlength, List.getElem?_length] at he
      cases he
    · rw [← hlist, hrest, ← hlength, List.getElem?_append_right (Nat.le_refl _), Nat.sub_self] at he
      obtain rfl := Option.some.inj he
      exact ⟨_, k', hcall, hshows, hunderway.pause hm.reachable.framed hfunctions⟩
  · intro hnone
    rcases hunderway.call hm with ⟨-, hend⟩ | ⟨e', k', heap, hrest, -, -, -, -, -⟩
    · exact ⟨_, hend, rfl⟩
    · rw [← hlist, hrest, ← hlength, List.getElem?_append_right (Nat.le_refl _), Nat.sub_self] at hnone
      cases hnone

/-- A registry with a value in the array and one under an integer that needs a box. -/
def sparse : Machine :=
  ((create {}).setEntry 0 (.integer 1) (.int 5)).setEntry 0 (.integer (2 ^ 50)) (.bool true)

/-- Two calls find the entries, and the third one ends. -/
theorem sparse_walk_complete : ∃ first second last ended, Walk .registry 0 sparse [first, second] last ∧
    (∃ k, Shows 0 #[] (.integer 1, .int 5) k first) ∧
    (∃ k, Shows 0 #[] (.integer (2 ^ 50), .bool true) k second ∧ ∃ b, k = .boxed b) ∧
    Op.next .registry last = .ok false ended ∧ ended.stack = #[] := by
  have hempty : Filled 0 (create {}) := .empty (reachable_create _) rfl rfl
  have hm : Filled 0 sparse := (hempty.store (.integer 1 _)).store (.integer (2 ^ 50) _)
  have hlist : (sparse.heap.table 0).toList =
      [(.integer 1, .int 5), (.integer (2 ^ 50), .bool true)] := by decide +kernel
  have hstart : Walk .registry 0 sparse [] _ := .start
  obtain ⟨-, -, -, -, hfound, -⟩ := hm.walk_complete rfl hstart
  obtain ⟨first, k, hrun, hfirst, hpause⟩ := hfound _ (by rw [hlist]; rfl)
  have hnext := hstart.step hrun hpause
  obtain ⟨-, -, -, -, hfound, -⟩ := hm.walk_complete rfl hnext
  obtain ⟨second, k', hrun, hsecond, hpause⟩ := hfound _ (by rw [hlist]; rfl)
  have hlast := hnext.step hrun hpause
  obtain ⟨-, -, -, -, -, hend⟩ := hm.walk_complete rfl hlast
  obtain ⟨ended, hrun, hstack⟩ := hend (by rw [hlist]; rfl)
  exact ⟨first, second, _, ended, hlast, ⟨k, hfirst⟩, ⟨k', hsecond, hsecond.boxed.mpr ⟨_, rfl, by decide⟩⟩,
    hrun, hstack⟩

end Machine

end ScriptHost
