import Mathlib.Data.List.Infix
import Mathlib.Data.List.InsertIdx
import ScriptHost.Proofs.FiniteMap
import ScriptHost.Proofs.Growth
import ScriptHost.Proofs.Persistence

/-! # Integrity

Slots of the heap are used again, so a value that outlives its object would come to name another one.
A heap is intact when what its objects hold is there, and a machine when all that it keeps is. Every
change of a heap leaves it intact that stores only what is there, and so does a cycle of the collector.
-/

namespace ScriptHost

/-- The value of a key that names what may be an object. -/
def Key.object? : Key → Option Value
  | .object r => some (.object r)
  | .foreign w => some (.foreign w)
  | _ => none

namespace Table

variable {t : Table} {key k : Key} {v w : Value}

theorem mem_references : w ∈ t.references ↔ t.Keeps w ∨
    ∃ k u, (k, u) ∈ t.entries ∧ u.isNil = false ∧ k.object? = some w := by
  simp only [references, Keeps, List.mem_append, Array.mem_toList_iff, List.mem_map, Prod.exists,
    List.mem_filterMap, exists_eq_right]
  refine or_congr_right (exists_congr fun k => exists_congr fun u => and_congr_right fun _ => ?_)
  cases k <;> cases u <;> simp [Key.object?, Value.isNil]

/-- A write makes a table hold the value it stores and the key it stores it under, if anything. -/
theorem mem_references_set (h : w ∈ (t.set key v).references) :
    w ∈ t.references ∨ w = v ∨ key.object? = some w := by
  obtain ⟨hkeeps, hentries⟩ := keeps_set t key v
  rw [mem_references] at h ⊢
  rcases h with h | ⟨k, u, he, hnil, hk⟩
  · exact (hkeeps w h).elim (fun h => .inr (.inl h)) fun h => .inl (.inl h)
  · rcases hentries _ he with heq | he
    · obtain ⟨rfl, -⟩ := Prod.mk.inj heq
      exact .inr (.inr hk)
    · exact .inl (.inr ⟨k, u, he, hnil, hk⟩)

theorem mem_firstLive {entries : List (Key × Value)} (h : firstLive entries = some (k, v)) :
    (k, v) ∈ entries ∧ v.isNil = false :=
  ⟨List.mem_of_find?_eq_some h, by simpa using List.find?_some h⟩

/-- A traversal comes to a place of the array, or to an entry with a value. -/
theorem next_cases {start : Option Key} (h : t.next start = some (some (k, v))) :
    (∃ (i : Int) (n : Nat), k = .integer i ∧ v = t.array[n]?.getD .nil) ∨
      (k, v) ∈ t.entries ∧ v.isNil = false := by
  have hfrom : ∀ n, t.nextFrom n = some (k, v) →
      (∃ (i : Int) (n : Nat), k = .integer i ∧ v = t.array[n]?.getD .nil) ∨
        (k, v) ∈ t.entries ∧ v.isNil = false := by
    intro n hn
    unfold nextFrom at hn
    split at hn
    · cases hn
      exact .inl ⟨_, _, rfl, rfl⟩
    · exact .inr (mem_firstLive hn)
  unfold next at h
  split at h
  · exact hfrom _ (Option.some.inj h)
  · dsimp only at h
    split at h
    · exact hfrom _ (Option.some.inj h)
    · split at h
      · cases h
      · rename_i first rest hrest
        obtain ⟨he, hnil⟩ := mem_firstLive (Option.some.inj h)
        have hmem : (k, v) ∈ first :: rest := List.mem_cons_of_mem _ he
        rw [← hrest] at hmem
        exact .inr ⟨(List.dropWhile_sublist _).mem hmem, hnil⟩

end Table

namespace Heap

variable {β : Type} {h h' : Heap β} {r s : Ref} {v w : Value} {slot : Nat} {key : Key}

/-- The object of a value, if it refers to one, is there. -/
def Present (h : Heap β) (v : Value) : Prop := ∀ r, v.ref? = some r → h.contents? r ≠ none

/-- A sound heap whose objects hold only what is there. -/
structure Intact (h : Heap β) : Prop where
  sound : h.Sound
  held : ∀ {r v}, h.Holds r v → h.Present v

theorem present_of_ref? (hv : v.ref? = none) : h.Present v := fun r hr => by
  rw [hv] at hr
  cases hr

@[simp] theorem present_nil : h.Present .nil := present_of_ref? rfl

@[simp] theorem present_object : h.Present (.object r) ↔ h.contents? r ≠ none := by
  simp [Present, Value.ref?]

theorem present_congr (hr : ∀ r, h.contents? r ≠ none → h'.contents? r ≠ none) (hv : h.Present v) :
    h'.Present v := fun r hv' => hr r (hv r hv')

theorem Change.present (hc : h.Change h') (hs : h.Sound) (hv : h.Present v) : h'.Present v := by
  refine present_congr (fun r hr => ?_) hv
  obtain ⟨c, hc'⟩ := Option.ne_none_iff_exists'.mp hr
  have hid : h'.identity? r = some c.identity := hc.identity hs (by rw [identity?, hc', Option.map_some])
  intro hnone
  rw [identity?, hnone] at hid
  cases hid

/-! ## What objects hold -/

theorem Intact.references {t : Table} (hh : h.Intact) (ht : h.tables.get? slot = some t)
    (hv : v ∈ t.references) : h.Present v := by
  refine hh.held (r := ⟨.table, slot⟩) (mem_references.mp ?_)
  simp only [Heap.references, ht, List.mem_append]
  exact .inr hv

theorem Intact.of_table (hh : h.Intact) (hv : v ∈ (h.table slot).references) : h.Present v := by
  unfold table at hv
  cases ht : h.tables.get? slot with
  | none => simp [ht, Table.references] at hv
  | some t => exact hh.references ht (by simpa [ht] using hv)

/-- A value that is read from a table is held by it. -/
theorem holds_get (hnil : ((h.table slot).get key).isNil = false) :
    h.Holds ⟨.table, slot⟩ ((h.table slot).get key) := by
  unfold table at hnil ⊢
  cases ht : h.tables.get? slot with
  | none => simp [ht, Table.get_empty, Value.isNil] at hnil
  | some t =>
      rw [ht] at hnil
      exact (Table.mem_of_get hnil).elim (.item ht) (.entry ht)

theorem Intact.get (hh : h.Intact) (slot : Nat) (key : Key) : h.Present ((h.table slot).get key) := by
  cases hnil : ((h.table slot).get key).isNil with
  | true => exact Value.eq_nil hnil ▸ present_nil
  | false => exact hh.held (holds_get hnil)

/-- What a traversal comes to. -/
theorem Intact.next {start : Option Key} (hh : h.Intact)
    (hnext : (h.table slot).next start = some (some (key, v))) :
    h.Present v ∧ ∀ w, key.object? = some w → h.Present w := by
  rcases Table.next_cases hnext with ⟨i, k, rfl, rfl⟩ | ⟨he, hnil⟩
  · refine ⟨?_, nofun⟩
    cases hk : (h.table slot).array[k]? with
    | none => exact present_nil
    | some v => exact hh.of_table (Table.mem_references.mpr (.inl (.inl (Array.mem_of_getElem? hk))))
  · exact ⟨hh.of_table (Table.mem_references.mpr (.inl (.inr ⟨_, he⟩))),
      fun w hw => hh.of_table (Table.mem_references.mpr (.inr ⟨_, _, he, hnil, hw⟩))⟩

theorem holds_tableMeta {mt : Nat} (hmt : (h.table slot).metatable = some mt) :
    h.Holds ⟨.table, slot⟩ (.table mt) := by
  unfold table at hmt
  cases ht : h.tables.get? slot with
  | none => simp [ht] at hmt
  | some t => exact .tableMeta ht (by simpa [ht] using hmt)

/-! ## Changes -/

/-- Where a change brings in only what is there, all that is held stays there. -/
theorem Intact.change (hh : h.Intact) (hc : h.Change h')
    (hnew : ∀ r v, h'.Holds r v → h.Holds r v ∨ h'.Present v) : h'.Intact where
  sound := hc.sound hh.sound
  held hv := (hnew _ _ hv).elim (fun hv => hc.present hh.sound (hh.held hv)) id

/-- Beside the new object nothing holds anything new. -/
theorem Allocates.holds {c : Contents β} (ha : h.Allocates h' r c) (hv : h'.Holds s v) :
    h.Holds s v ∨ s = r := by
  by_cases hs : s = r
  · exact .inr hs
  · refine .inl (holds_congr (h := h') ?_ hv)
    rw [ha.contents, if_neg hs]

/-- A heap with one more object, where all that is held was there before. -/
structure Gains (h h' : Heap β) (r : Ref) : Prop where
  change : h.Change h'
  fresh : h.contents? r = none
  there : h'.contents? r ≠ none
  held : ∀ {s v}, h'.Holds s v → h.Present v

theorem Gains.intact (hg : h.Gains h' r) (hh : h.Intact) : h'.Intact :=
  hh.change hg.change fun _ _ hv => .inr (hg.change.present hh.sound (hg.held hv))

/-- A new object must hold only what is there. -/
theorem Intact.gains {c : Contents β} (hh : h.Intact) (ha : h.Allocates h' r c)
    (hnew : ∀ v, h'.Holds r v → h.Present v) : h.Gains h' r where
  change := ha.change
  fresh := ha.fresh
  there := ha.object ▸ Option.some_ne_none c
  held hv := (ha.holds hv).elim hh.held fun hs => hnew _ (hs ▸ hv)

theorem Intact.gains_newTable (hh : h.Intact) : h.Gains h.newTable.2 ⟨.table, h.newTable.1⟩ := by
  have ha := allocates_newTable hh.sound
  refine hh.gains ha fun v hv => ?_
  have hobject := contents?_table.mp ha.object
  cases hv with
  | item ht hv | entry ht hv | objectKey ht hv | foreignKey ht hv | tableMeta ht hv =>
      rw [hobject] at ht
      cases ht
      simp at hv

theorem Intact.gains_newFunction {f : Closure β} (hh : h.Intact) (hf : ∀ v ∈ f.upvalues, h.Present v) :
    h.Gains (h.newFunction f).2 ⟨.function, (h.newFunction f).1⟩ := by
  have ha := allocates_newFunction hh.sound f
  refine hh.gains ha fun v hv => ?_
  have hobject := contents?_function.mp ha.object
  cases hv with
  | upvalue hget hv =>
      rw [function?, hget] at hobject
      cases hobject
      exact hf v hv

theorem Intact.gains_newBoxed (hh : h.Intact) (i : Int) :
    h.Gains (h.newBoxed i).2 ⟨.boxed, (h.newBoxed i).1⟩ :=
  hh.gains (allocates_newBoxed hh.sound i) fun _ hv => by cases hv

theorem Intact.gains_newUserdata (hh : h.Intact) (size : Nat) :
    h.Gains (h.newUserdata size).2 ⟨.userdata, (h.newUserdata size).1⟩ := by
  have hget := fun slot => newUserdata_userdata? size slot hh.sound
  have hold : ∀ {slot u}, (h.newUserdata size).2.userdata.get? slot = some u →
      h.userdata.get? slot = some u ∨ u.metatable = none ∧ u.userValue = .nil := by
    intro slot u hu
    have hnew := hget slot
    rw [userdata?, hu] at hnew
    split at hnew
    · cases hnew
      exact .inr ⟨rfl, rfl⟩
    · exact .inl hnew.symm
  refine ⟨.newUserdata size, Option.map_eq_none_iff.mpr (newUserdata_slot hh.sound), ?_, fun {r v} hv => ?_⟩
  · intro hnone
    have hnew := hget (h.newUserdata size).1
    rw [if_pos rfl, userdata?, Option.map_eq_none_iff.mp hnone] at hnew
    cases hnew
  · cases hv with
    | item ht hv => exact hh.held (.item ht hv)
    | entry ht hv => exact hh.held (.entry ht hv)
    | objectKey ht hv hnil => exact hh.held (.objectKey ht hv hnil)
    | foreignKey ht hv hnil => exact hh.held (.foreignKey ht hv hnil)
    | tableMeta ht hmt => exact hh.held (.tableMeta ht hmt)
    | upvalue hf hv => exact hh.held (.upvalue hf hv)
    | userMeta hu hmt =>
        rcases hold hu with hu | ⟨hnone, -⟩
        · exact hh.held (.userMeta hu hmt)
        · rw [hnone] at hmt
          cases hmt
    | userValue hu =>
        rcases hold hu with hu | ⟨-, hnil⟩
        · exact hh.held (.userValue hu)
        · exact hnil ▸ present_nil

/-- A changed table must hold only what is there. -/
theorem Intact.modifyTable {f : Table → Table} (hh : h.Intact) (hc : h.Change (h.modifyTable slot f))
    (hf : ∀ t, h.tables.get? slot = some t → (∀ mt, (f t).metatable = some mt → h.Present (.table mt)) ∧
      ∀ v ∈ (f t).references, h.Present v) : (h.modifyTable slot f).Intact := by
  refine hh.change hc fun r v hv => ?_
  rw [← mem_references] at hv ⊢
  obtain ⟨kind, s⟩ := r
  cases kind with
  | function | userdata | boxed => exact .inl hv
  | table =>
      simp only [Heap.references, Heap.modifyTable, Arena.get?_modify] at hv ⊢
      by_cases hs : s = slot
      · subst hs
        cases ht : h.tables.get? s with
        | none => simp [ht] at hv
        | some t =>
            simp only [ht, if_true, Option.map_some, List.mem_append, Option.mem_toList,
              Option.map_eq_some_iff] at hv
            obtain ⟨hmeta, hrefs⟩ := hf t ht
            refine .inr (hc.present hh.sound ?_)
            rcases hv with ⟨mt, hmt, rfl⟩ | hv
            · exact hmeta mt hmt
            · exact hrefs v hv
      · rw [if_neg hs] at hv
        exact .inl hv

theorem Intact.modifyUserdata {f : Userdata → Userdata} (hh : h.Intact)
    (hc : h.Change (h.modifyUserdata slot f))
    (hf : ∀ u, h.userdata? slot = some u → (∀ mt, (f u).metatable = some mt → h.Present (.table mt)) ∧
      h.Present (f u).userValue) : (h.modifyUserdata slot f).Intact := by
  refine hh.change hc fun r v hv => ?_
  rw [← mem_references] at hv ⊢
  obtain ⟨kind, s⟩ := r
  cases kind with
  | table | function | boxed => exact .inl hv
  | userdata =>
      simp only [Heap.references, Heap.modifyUserdata, Arena.get?_modify] at hv ⊢
      by_cases hs : s = slot
      · subst hs
        cases hu : h.userdata.get? s with
        | none => simp [hu] at hv
        | some u =>
            simp only [hu, if_true, Option.map_some, List.mem_append, Option.mem_toList,
              Option.map_eq_some_iff, List.mem_singleton] at hv
            obtain ⟨hmeta, hvalue⟩ := hf u hu
            refine .inr (hc.present hh.sound ?_)
            rcases hv with ⟨mt, hmt, rfl⟩ | rfl
            · exact hmeta mt hmt
            · exact hvalue
      · rw [if_neg hs] at hv
        exact .inl hv

theorem Intact.setUpvalue {n : Nat} (hh : h.Intact) (hw : h.Present w) :
    (h.setUpvalue slot n w).Intact := by
  have hc : h.Change (h.setUpvalue slot n w) := .upvalue slot n w
  refine hh.change hc fun r v hv => ?_
  rw [← mem_references] at hv ⊢
  obtain ⟨kind, s⟩ := r
  cases kind with
  | table | userdata | boxed => exact .inl hv
  | function =>
      simp only [Heap.references, Heap.setUpvalue, Arena.get?_modify] at hv ⊢
      by_cases hs : s = slot
      · subst hs
        cases hf : h.functions.get? s with
        | none => simp [hf] at hv
        | some f =>
            simp only [hf, if_true, Option.map_some, Option.getD_some, Array.mem_toList_iff] at hv ⊢
            rcases Array.mem_or_eq_of_mem_setIfInBounds hv with hv | rfl
            · exact .inl hv
            · exact .inr (hc.present hh.sound hw)
      · rw [if_neg hs] at hv
        exact .inl hv

theorem Intact.setEntry (hh : h.Intact) (hkey : ∀ w, key.object? = some w → h.Present w)
    (hv : h.Present v) : (h.modifyTable slot fun t => t.set key v).Intact := by
  refine hh.modifyTable (.entry slot key v) fun t ht => ⟨fun mt hmt => ?_, fun w hw => ?_⟩
  · rw [Table.metatable_set] at hmt
    exact hh.held (.tableMeta ht hmt)
  · rcases Table.mem_references_set hw with hw | rfl | hw
    · exact hh.references ht hw
    · exact hv
    · exact hkey w hw

theorem Intact.setTableMeta {mt : Option Nat} (hh : h.Intact)
    (hmt : ∀ slot, mt = some slot → h.Present (.table slot)) :
    (h.modifyTable slot fun t => { t with metatable := mt }).Intact :=
  hh.modifyTable (.tableMeta slot mt) fun t ht =>
    ⟨hmt, fun v hv => hh.references ht (show v ∈ t.references from hv)⟩

theorem Intact.setUserMeta {mt : Option Nat} (hh : h.Intact)
    (hmt : ∀ slot, mt = some slot → h.Present (.table slot)) :
    (h.modifyUserdata slot fun u => { u with metatable := mt }).Intact :=
  hh.modifyUserdata (.userMeta slot mt) fun u hu =>
    ⟨hmt, show h.Present u.userValue from hh.held (.userValue hu)⟩

theorem Intact.setUserValue (hh : h.Intact) (hv : h.Present v) :
    (h.modifyUserdata slot fun u => { u with userValue := v }).Intact :=
  hh.modifyUserdata (.userValue slot v) fun _ hu => ⟨fun _ hmt => hh.held (.userMeta hu hmt), hv⟩

/-- A heap with the same arenas. -/
theorem Intact.of_references (hh : h.Intact) (hs : h'.Sound)
    (href : ∀ r, h'.references r = h.references r)
    (hcontents : ∀ r, h.contents? r ≠ none → h'.contents? r ≠ none) : h'.Intact where
  sound := hs
  held hv := present_congr hcontents (hh.held (mem_references.mp (href _ ▸ mem_references.mpr hv)))

theorem Intact.prepare (hh : h.Intact) : h.prepare.Intact :=
  hh.of_references (hh.sound.of_eq hh.sound.tables hh.sound.functions hh.sound.boxed rfl rfl rfl rfl)
    (fun _ => rfl) fun _ => id

/-- A change of the memory only. -/
theorem Intact.beside (hh : h.Intact) (hc : h.Change h')
    (href : ∀ r, h'.references r = h.references r) : h'.Intact :=
  hh.change hc fun _ _ hv => .inl (mem_references.mp (href _ ▸ mem_references.mpr hv))

end Heap

/-- The handler of a protected call is there, and so is what stands of the errors that it saw. These
    errors themselves may have gone: what the handler made of them takes their place. -/
structure Guard.Intact (h : Heap Native) (g : Guard) : Prop where
  handler : ∀ v, g.handler = some v → h.Present v
  outcome : ∀ d, g.decoration = some d → h.Present d.outcome

namespace Machine

variable {m m' : Machine} {v w : Value} {n p slot : Nat} {key : Key} {i : StackIndex}
  {h : Heap Native}

/-- A machine that keeps only what is there. -/
structure Intact (m : Machine) : Prop where
  heap : m.heap.Intact
  stack : ∀ v ∈ m.stack, m.heap.Present v
  registry : m.heap.Present (.table m.registry)
  globals : m.heap.Present (.table m.globals)
  cached : ∀ e ∈ m.cache.entries, m.heap.Present e.2
  guards : ∀ g ∈ m.guards, g.Intact m.heap

theorem intact_create (limits : Limits) : (create limits).Intact := by
  have hempty : ({ interval := limits.collectInterval } : Heap Native).Intact := by
    refine ⟨Heap.sound_empty.of_eq Arena.sound_empty Arena.sound_empty Arena.sound_empty rfl rfl rfl rfl,
      fun {r v} hv => absurd ?_ (Heap.contents?_of_holds hv)⟩
    obtain ⟨kind, slot⟩ := r
    cases kind <;> simp [Heap.contents?, Arena.get?]
  have hregistry := hempty.gains_newTable.intact hempty
  exact {
    heap := hregistry.gains_newTable.intact hregistry
    stack := by simp [create]
    registry := Heap.present_object.mpr (Option.some_ne_none _)
    globals := Heap.present_object.mpr (Option.some_ne_none _)
    cached := by simp [create]
    guards := by simp [create] }

/-! ## The stack -/

theorem Intact.of_stack {s : Array Value} (hm : m.Intact) (hs : ∀ v ∈ s, m.heap.Present v) :
    { m with stack := s }.Intact := { hm with stack := hs }

/-- Only what lay on the stack, and nil, is left of it. -/
theorem Intact.cut {s : Array Value} (hm : m.Intact) (hs : ∀ v ∈ s, v ∈ m.stack ∨ v = .nil) :
    { m with stack := s }.Intact :=
  hm.of_stack fun v hv => (hs v hv).elim (hm.stack v) fun h => h ▸ Heap.present_nil

/-- One value more is put on it. -/
theorem Intact.extend {s : Array Value} (hm : m.Intact) (hv : m.heap.Present v)
    (hs : ∀ w ∈ s, w ∈ m.stack ∨ w = v) : { m with stack := s }.Intact :=
  hm.of_stack fun w hw => (hs w hw).elim (hm.stack w) fun h => h ▸ hv

theorem Intact.push (hm : m.Intact) (hv : m.heap.Present v) : (m.push v).Intact :=
  hm.extend hv fun _ => Array.mem_push.mp

theorem mem_shrink {s : Array Value} (h : v ∈ s.shrink n) : v ∈ s := by
  rw [← Array.mem_toList_iff, Array.toList_shrink] at h
  exact Array.mem_toList_iff.mp (List.mem_of_mem_take h)

theorem Intact.truncate (hm : m.Intact) (n : Nat) : (m.truncate n).Intact :=
  hm.cut fun _ hv => .inl (mem_shrink hv)

theorem Intact.pop (hm : m.Intact) (n : Nat) : (m.pop n).Intact := hm.truncate _

theorem Intact.resize (hm : m.Intact) (n : Nat) : (m.resize n).Intact := by
  unfold Machine.resize
  split
  · exact hm.truncate n
  · refine hm.cut fun v hv => ?_
    exact (Array.mem_append.mp hv).imp_right fun h => (Array.mem_replicate.mp h).2

theorem Intact.setTop (hm : m.Intact) (n : Nat) : (m.setTop n).Intact := hm.resize _

theorem Intact.putAt (hm : m.Intact) (p : Nat) (hv : m.heap.Present v) : (m.putAt p v).Intact :=
  hm.extend hv fun _ => Array.mem_or_eq_of_mem_setIfInBounds

theorem mem_insertIdxIfInBounds {s : Array Value} (h : w ∈ s.insertIdxIfInBounds p v) :
    w ∈ s ∨ w = v := by
  rw [← Array.mem_toList_iff, toList_insertIdxIfInBounds] at h
  exact (List.eq_or_mem_of_mem_insertIdx h).symm.imp_left Array.mem_toList_iff.mp

theorem Intact.insertAt (hm : m.Intact) (p : Nat) (hv : m.heap.Present v) : (m.insertAt p v).Intact :=
  hm.extend hv fun _ => mem_insertIdxIfInBounds

theorem Intact.eraseAt (hm : m.Intact) (p : Nat) : (m.eraseAt p).Intact := by
  refine hm.cut fun v hv => .inl ?_
  rw [← Array.mem_toList_iff, Array.toList_eraseIdxIfInBounds] at hv
  exact Array.mem_toList_iff.mp (List.mem_of_mem_eraseIdx hv)

theorem Intact.sinkTop (hm : m.Intact) (p : Nat) : (m.sinkTop p).Intact := by
  unfold Machine.sinkTop
  split
  · rename_i v hv
    refine hm.cut fun w hw => .inl ?_
    rcases mem_insertIdxIfInBounds hw with hw | rfl
    · rw [← Array.mem_toList_iff, Array.toList_pop] at hw
      exact Array.mem_toList_iff.mp (List.mem_of_mem_dropLast hw)
    · exact Array.mem_of_back? hv
  · exact hm

theorem mem_extract {s : Array Value} (h : v ∈ s.extract n p) : v ∈ s := by
  obtain ⟨k, hk⟩ := Array.mem_iff_getElem?.mp h
  rw [Array.getElem?_extract] at hk
  split at hk
  · exact Array.mem_of_getElem? hk
  · cases hk

theorem Intact.moveDown (hm : m.Intact) (p n : Nat) : (m.moveDown p n).Intact :=
  hm.cut fun _ hv => .inl ((Array.mem_append.mp hv).elim mem_shrink mem_extract)

/-! ## Protected calls -/

theorem Intact.modifyGuard {f : Guard → Guard} (hm : m.Intact)
    (hf : ∀ g, g.Intact m.heap → (f g).Intact m.heap) : (m.modifyGuard f).Intact := by
  rw [modifyGuard_eq]
  refine { hm with guards := fun g hg => ?_ }
  cases hguards : m.guards with
  | nil => simp [hguards] at hg
  | cons g' rest =>
      simp only [hguards, List.modifyHead_cons, List.mem_cons] at hg
      have hall := hm.guards
      rw [hguards] at hall
      rcases hg with rfl | hg
      · exact hf g' (hall g' List.mem_cons_self)
      · exact hall g (List.mem_cons_of_mem _ hg)

theorem Intact.pushGuard {handler : Option Value} (hm : m.Intact)
    (hv : ∀ v, handler = some v → m.heap.Present v) : (m.pushGuard { handler }).Intact :=
  { hm with guards := List.forall_mem_cons.mpr ⟨⟨hv, nofun⟩, hm.guards⟩ }

theorem Intact.popGuard (hm : m.Intact) : m.popGuard.Intact :=
  { hm with guards := fun g hg => hm.guards g (List.mem_of_mem_tail hg) }

theorem Intact.forgetDecoration (hm : m.Intact) : m.forgetDecoration.Intact := by
  refine hm.modifyGuard fun g hg => ?_
  split
  · exact hg
  · exact ⟨hg.handler, nofun⟩

/-! ## The heap -/

/-- What the roots name must be in a new heap. -/
theorem Intact.of_roots (hm : m.Intact) (hh : h.Intact)
    (hroot : ∀ v, m.IsRoot v → m.heap.Present v → h.Present v) : { m with heap := h }.Intact where
  heap := hh
  stack v hv := hroot v (.stack hv) (hm.stack v hv)
  registry := hroot _ .registry hm.registry
  globals := hroot _ .globals hm.globals
  cached e he := hroot _ (.cached (show (e.1, e.2) ∈ m.cache.entries from he)) (hm.cached e he)
  guards g hg := ⟨fun v hv => hroot v (.handler hg hv) ((hm.guards g hg).handler v hv),
    fun d hd => hroot _ (.outcome hg hd) ((hm.guards g hg).outcome d hd)⟩

theorem Intact.change (hm : m.Intact) (hc : m.heap.Change h) (hh : h.Intact) :
    { m with heap := h }.Intact :=
  hm.of_roots hh fun _ _ => hc.present hm.heap.sound

theorem Intact.gain {r : Ref} (hm : m.Intact) (hg : m.heap.Gains h r) :
    ({ m with heap := h }.push (.object r)).Intact :=
  (hm.change hg.change (hg.intact hm.heap)).push (Heap.present_object.mpr hg.there)

/-- An integer is made a value, in a box if need be. -/
theorem Intact.ofInt (hm : m.Intact) (n : Int) : (m.ofInt n).2.Intact ∧
    (m.ofInt n).2.heap.Present (m.ofInt n).1 ∧
    ∀ {v}, m.heap.Present v → (m.ofInt n).2.heap.Present v := by
  change { m with heap := (m.heap.ofInt n).2 }.Intact ∧ (m.heap.ofInt n).2.Present (m.heap.ofInt n).1 ∧
    ∀ {v}, m.heap.Present v → (m.heap.ofInt n).2.Present v
  have hg := hm.heap.gains_newBoxed n
  unfold Heap.ofInt
  split
  · exact ⟨hm, Heap.present_of_ref? rfl, id⟩
  · exact ⟨hm.change hg.change (hg.intact hm.heap), Heap.present_object.mpr hg.there,
      hg.change.present hm.heap.sound⟩

/-- A cycle frees nothing that the roots name, and nothing that is held by what it keeps. -/
theorem Intact.cycle (hm : m.Intact) : m.cycle.2.2.Intact := by
  obtain ⟨heap, events, heq⟩ := m.cycle_eq
  have hheap : m.cycle.2.2.heap = heap := by rw [heq]
  have hkept : ∀ {r}, m.Kept r → m.heap.contents? r ≠ none → heap.contents? r ≠ none := by
    intro r hr hold
    rw [← hheap, contents?_cycle_of_kept hm.heap.sound hr]
    exact hold
  have hintact : heap.Intact := by
    refine ⟨hheap ▸ cycle_sound hm.heap.sound, fun {r v} hv r' hr' => ?_⟩
    have hr : m.Kept r := by
      by_contra hnot
      exact Heap.contents?_of_holds hv (hheap ▸ contents?_cycle_of_not_kept hm.heap.sound hnot)
    have hold : m.heap.Holds r v :=
      Heap.holds_congr (hheap ▸ (contents?_cycle_of_kept hm.heap.sound hr).symm) hv
    exact hkept (hr.step hold hr') (hm.heap.held hold r' hr')
  have hroots : { m with heap }.Intact :=
    hm.of_roots hintact fun v hv hold r hr => hkept (.inl (.start hv hr)) (hold r hr)
  rw [heq]
  exact { hroots with }

/-- Closing drops stack and guards, and frees nothing. -/
theorem Intact.shut (hm : m.Intact) : m.shut.2.Intact := by
  have hprepared := hm.of_roots hm.heap.prepare fun _ _ hv => hv
  simp only [Machine.shut, enqueue_eq]
  exact { hprepared with stack := by simp [log], guards := by simp [log] }

/-! ## Reading values -/

theorem Intact.stack_getD (hm : m.Intact) (p : Nat) : m.heap.Present (m.stack[p]?.getD .nil) := by
  cases hp : m.stack[p]? with
  | none => exact Heap.present_nil
  | some v => exact hm.stack v (Array.mem_of_getElem? hp)

theorem Intact.value (hm : m.Intact) (i : StackIndex) : m.heap.Present (m.value i) := by
  have hslot : m.heap.Present (((m.position? i).bind fun p => m.stack[p]?).getD .nil) := by
    cases m.position? i with
    | none => exact Heap.present_nil
    | some p => exact hm.stack_getD p
  cases i with
  | registry => exact hm.registry
  | environment => exact hm.globals
  | fromBottom | fromTop => exact hslot
  | upvalue n =>
      change m.heap.Present ((m.upvalue? n).getD .nil)
      cases hv : m.upvalue? n with
      | none => exact Heap.present_nil
      | some v =>
          unfold upvalue? at hv
          split at hv
          · cases hv
          · obtain ⟨f, hf, hv⟩ := Option.bind_eq_some_iff.mp hv
            obtain ⟨slot, -, hf⟩ := Option.bind_eq_some_iff.mp hf
            exact hm.heap.held (.upvalue hf (Array.mem_of_getElem? hv))

theorem Intact.topValue (hm : m.Intact) : m.heap.Present m.topValue := hm.value .top

theorem Intact.rawGet (hm : m.Intact) (slot : Nat) (v : Value) : m.heap.Present (m.rawGet slot v) := by
  unfold Machine.rawGet
  split
  · exact hm.heap.get slot _
  · exact Heap.present_nil

/-- A metatable is held by what has it. -/
theorem holds_metatable {mt : Nat} (h : m.metatable? v = some mt) : ∃ r, m.heap.Holds r (.table mt) := by
  unfold metatable? at h
  split at h
  · exact ⟨_, Heap.holds_tableMeta h⟩
  · obtain ⟨u, hu, hmt⟩ := Option.bind_eq_some_iff.mp h
    exact ⟨_, .userMeta hu hmt⟩
  · cases h

theorem Intact.metaEntry (hm : m.Intact) (v : Value) (name : StringId) :
    m.heap.Present (m.metaEntry v name) := by
  unfold Machine.metaEntry
  split
  · exact hm.heap.get _ _
  · exact Heap.present_nil

theorem Intact.metafield (hm : m.Intact) (v : Value) (f : Metafield) :
    m.heap.Present (m.metafield v f) := hm.metaEntry v f.id

/-- A key that is made of a value names the same object. -/
theorem present_key? {h : Heap Native} (hkey : h.key? v = some key) (hv : h.Present v) (w : Value)
    (hw : key.object? = some w) : h.Present w := by
  unfold Heap.key? at hkey
  split at hkey
  · cases hkey
    cases hw
  · cases v with
    | object | foreign =>
        cases hkey
        cases hw
        exact hv
    | nil => cases hkey
    | bool | int | string | light =>
        cases hkey
        cases hw
    | float d =>
        simp only [Key.ofValue?] at hkey
        split at hkey
        · cases hkey
        · split at hkey <;> cases hkey <;> cases hw

/-- A key is made a value, in a box if need be. -/
theorem Intact.keyValue (hm : m.Intact) (hkey : ∀ w, key.object? = some w → m.heap.Present w) :
    (m.keyValue key).2.Intact ∧ (m.keyValue key).2.heap.Present (m.keyValue key).1 ∧
      ∀ {v}, m.heap.Present v → (m.keyValue key).2.heap.Present v := by
  unfold Machine.keyValue
  split
  · rename_i w hw
    refine ⟨hm, ?_, id⟩
    cases key with
    | object | foreign =>
        cases hw
        exact hkey _ rfl
    | integer i =>
        simp only [Key.toValue] at hw
        split at hw <;> cases hw
        exact Heap.present_of_ref? rfl
    | string | float | boolean | light =>
        cases hw
        exact Heap.present_of_ref? rfl
  · exact hm.ofInt _

end Machine

end ScriptHost
