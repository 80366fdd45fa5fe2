import ScriptHost.Proofs.Answers

/-! # What installing the properties leaves

Installing the properties of a peer in a metatable puts a handler under `__index` that keeps the function
that reads the properties, and the metatable itself for the names that are no properties. The other
entries of the metatable stay.
-/

namespace ScriptHost

theorem Table.get_set_string {t : Table} {v : Value} {id other : StringId} :
    (t.set (.string id) v).get (.string other) = if other = id then v else t.get (.string other) := by
  have hout : ∀ {other : StringId} {array : Array Value} (i : Int), Key.string other = .integer i →
      ¬ (1 ≤ i ∧ i ≤ array.size) := fun _ h => by cases h
  rw [set_entry hout (fun h => by cases h), get_entry hout, get_entry hout, entryValue_storeEntry]
  simp only [Key.string.injEq]

namespace Heap

variable {h : Heap Native} {t : Table} {mt r : Nat} {f g : Closure Native} {update : Table → Table}

/-- A new function takes no slot of another. -/
theorem function?_newFunction_of_some (hh : h.Sound) (hr : h.function? r = some g) (f : Closure Native) :
    (h.newFunction f).2.function? r = some g := by
  have hne : r ≠ (h.newFunction f).1 := by
    rintro rfl
    exact Option.some_ne_none g (hr.symm.trans (Arena.get?_insert_slot hh.functions))
  exact (Arena.get?_insert hh.functions).trans ((if_neg hne).trans hr)

theorem table_of_some (ht : h.tables.get? mt = some t) : h.table mt = t := by
  rw [table, ht, Option.getD_some]

theorem tables_modifyTable (ht : h.tables.get? mt = some t) :
    (h.modifyTable mt update).tables.get? mt = some (update t) := by
  rw [modifyTable, Arena.get?_modify, if_pos rfl, ht, Option.map_some]

/-- A heap where the properties of a peer are installed in a table, with the slots of the handler and of the
    function that reads the properties. -/
def installed (h : Heap Native) (p : Peer) (mt : Nat) : Nat × Nat × Heap Native :=
  let (reader, h) := h.newFunction ⟨⟨.readProperty p, .host⟩, #[]⟩
  let (writer, h) := h.newFunction ⟨⟨.writeProperty p, .host⟩, #[]⟩
  let h := h.modifyTable mt fun t => t.set (.string Metafield.newindex.id) (.function writer)
  let (handler, h) := h.newFunction ⟨⟨.readPropertyOrField, .host⟩, #[.function reader, .table mt]⟩
  (handler, reader, h.modifyTable mt fun t => t.set (.string Metafield.index.id) (.function handler))

variable {p : Peer}

theorem table_installed (ht : h.tables.get? mt = some t) : ∃ writer, (h.installed p mt).2.2.table mt =
    (t.set (.string Metafield.newindex.id) (.function writer)).set (.string Metafield.index.id)
      (.function (h.installed p mt).1) :=
  ⟨_, table_of_some (tables_modifyTable (tables_modifyTable ht))⟩

theorem handler_installed (hh : h.Sound) : (h.installed p mt).2.2.function? (h.installed p mt).1 =
    some ⟨⟨.readPropertyOrField, .host⟩, #[.function (h.installed p mt).2.1, .table mt]⟩ :=
  function?_newFunction
    ((Change.entry ..).sound ((Change.newFunction _).sound ((Change.newFunction _).sound hh))) _

theorem reader_installed (hh : h.Sound) : (h.installed p mt).2.2.function? (h.installed p mt).2.1 =
    some ⟨⟨.readProperty p, .host⟩, #[]⟩ := by
  have hreading : (h.newFunction ⟨⟨.readProperty p, .host⟩, #[]⟩).2.Sound :=
    (Change.newFunction _).sound hh
  have hwriting := function?_newFunction_of_some hreading (function?_newFunction hh _)
    ⟨⟨.writeProperty p, .host⟩, #[]⟩
  exact function?_newFunction_of_some
    ((Change.entry ..).sound ((Change.newFunction _).sound hreading)) hwriting _

end Heap

namespace Machine

/-- The `__index` field of a metatable is the handler that reads the properties of a peer. -/
structure Offers (m : Machine) (mt : Nat) (p : Peer) (f r : Nat) (o o' : Origin) : Prop where
  index : (m.heap.table mt).get (.string Metafield.index.id) = .function f
  handler : m.heap.function? f = some
    { body := { behaviour := .readPropertyOrField, origin := o }, upvalues := #[.function r, .table mt] }
  reader : ∃ upvalues, m.heap.function? r = some
    { body := { behaviour := .readProperty p, origin := o' }, upvalues }

variable {m : Machine} {h : Heap Native} {s t us : List Value} {v : Value} {mt : Nat} {f : Metafield}

/-- The same machine with other values on its stack and another heap. -/
def holding (m : Machine) (values : List Value) (heap : Heap Native) : Machine :=
  { m with stack := values.toArray, heap }

theorem laid_holding : Laid m.base s (m.holding s h) := ⟨rfl, rfl⟩

theorem holding_eq {stack : Array Value} (hstack : stack.toList = s) :
    { m with stack, heap := h } = m.holding s h := by
  rw [holding, ← hstack, Array.toArray_toList]

theorem push_holding : (m.holding s h).push v = m.holding (s ++ [v]) h := by
  simp [holding, push]

theorem pushText_holding (hm : m.Named) (f : Metafield) :
    (m.holding s h).pushText f.text = m.holding (s ++ [.string f.id]) h := by
  have hname := StringPool.intern_again hm.sound (hm.names f)
  rw [← push_holding]
  simp only [pushText, pushBytes, intern, holding, hname]

theorem sinkTop_holding : (m.holding (s ++ t ++ [v]) h).sinkTop s.length = m.holding (s ++ v :: t) h := by
  have hl : Laid m.base (s ++ t ++ [v]) (m.holding (s ++ t ++ [v]) h) := laid_holding
  have hsunk := hl.sinkTop.stack
  unfold sinkTop at hsunk ⊢
  split
  · rename_i hback
    rw [hback] at hsunk
    exact holding_eq hsunk
  · rename_i hback
    simp [holding] at hback

theorem pop_holding (hb : m.base ≤ s.length) : (m.holding (s ++ t) h).pop t.length = m.holding s h :=
  holding_eq (laid_holding.pop hb rfl).stack

/-- So many objects can be made before a collection is due. -/
def Spares (m : Machine) (count : Nat) : Prop :=
  ∀ n, m.heap.interval = some n → m.heap.allocations + count ≤ n

theorem Spares.not_due {count : Nat} (hm : m.Spares count) (hinterval : h.interval = m.heap.interval)
    (hmade : h.allocations < m.heap.allocations + count) : h.isDue = false := by
  rw [Heap.isDue, hinterval]
  cases hn : m.heap.interval with
  | none => rfl
  | some n => exact decide_eq_false (Nat.not_le.mpr (Nat.lt_of_lt_of_le hmade (hm n hn)))

end Machine

namespace Act

open Machine

variable {host : Host} {m : Machine} {h : Heap Native} {s t us : List Value} {v : Value} {mt n : Nat}
  {behaviour : Behaviour} {o : Origin}

theorem collectIfDue_skipped (hdue : m.heap.isDue = false) :
    (collectIfDue : Act ScriptError Unit) host m = .ok () m := by
  rw [collectIfDue, run_bind, run_get]
  simp only [hdue]
  rfl

/-- A function is made of the values on top, if no collection is due. -/
theorem pushFunction_holding (hdue : h.isDue = false) (hb : m.base ≤ s.length) (hn : us.length = n) :
    (pushFunction behaviour n o : Act ScriptError Unit) host (m.holding (s ++ us) h) =
      .ok () (m.holding (s ++ [.function (h.newFunction ⟨⟨behaviour, o⟩, us.toArray⟩).1])
        (h.newFunction ⟨⟨behaviour, o⟩, us.toArray⟩).2) := by
  have hl : Laid m.base (s ++ us) (m.holding (s ++ us) h) := laid_holding
  have hfirst : (m.holding (s ++ us) h).stack.size - min n (m.holding (s ++ us) h).top = s.length := by
    rw [hl.top, hl.size, List.length_append]
    omega
  have hcaptured : (m.holding (s ++ us) h).stack.extract s.length (m.holding (s ++ us) h).stack.size =
      us.toArray := by
    simp [holding]
  have hrest : (m.holding (s ++ us) h).stack.shrink s.length = s.toArray := by
    simp [holding]
  rw [pushFunction, bind_ok (collectIfDue_skipped hdue), run_modify]
  simp only [hfirst, hcaptured, truncate, hrest]
  exact congrArg (EStateM.Result.ok ()) push_holding

theorem pushFunction_bare (hdue : h.isDue = false) (hb : m.base ≤ s.length) :
    (pushFunction behaviour 0 o : Act ScriptError Unit) host (m.holding s h) =
      .ok () (m.holding (s ++ [.function (h.newFunction ⟨⟨behaviour, o⟩, #[]⟩).1])
        (h.newFunction ⟨⟨behaviour, o⟩, #[]⟩).2) := by
  have hpush : (pushFunction behaviour 0 o : Act ScriptError Unit) host (m.holding (s ++ []) h) = _ :=
    pushFunction_holding hdue hb rfl
  rwa [List.append_nil] at hpush

theorem rawStore_string {id : StringId} :
    Op.rawStore mt (.string id) v m = .ok () (m.setEntry mt (.string id) v) := rfl

/-- A table without a metatable gets the entry itself. -/
theorem writeChain_plain {id : StringId} {fuel : Nat} (hplain : (m.heap.table mt).metatable = none) :
    writeChain (.table mt) (.string id) v (fuel + 1) host m = .ok () (m.setEntry mt (.string id) v) := by
  have hfield : m.metafield (.table mt) .newindex = .nil := by
    simp only [metafield, metaEntry, metatable?, hplain]
  rw [writeChain, run_bind, run_get]
  simp only [writeHop, hfield]
  exact rawStore_string

/-- The key is put below the value on top. -/
theorem insert_holding {w : Value} (hb : m.base ≤ s.length) :
    Op.insert (.fromTop 2) (m.holding (s ++ [v] ++ [w]) h) = .ok () (m.holding (s ++ [w, v]) h) := by
  have hl : Laid m.base (s ++ v :: [w]) (m.holding (s ++ [v] ++ [w]) h) := by
    rw [List.append_assoc]
    exact laid_holding
  have hat : (m.holding (s ++ [v] ++ [w]) h).position? (.fromTop 2) = some s.length :=
    hl.position_fromTop hb rfl
  have hposition : Op.position (.fromTop 2) (m.holding (s ++ [v] ++ [w]) h) =
      .ok s.length (m.holding (s ++ [v] ++ [w]) h) := by
    rw [Op.position, Op.bind_ok Op.run_get, hat]
    rfl
  rw [Op.insert, Op.bind_ok hposition, Op.run_modify, sinkTop_holding]

theorem setField_holding (hm : m.Named) (hb : m.base ≤ s.length) (hn : m.base + n = s.length + 1)
    (hplain : (h.table mt).metatable = none) (f : Metafield) :
    setField (.fromBottom n) f.text host (m.holding (s ++ .table mt :: t ++ [v]) h) =
      .ok () (m.holding (s ++ .table mt :: t) (h.modifyTable mt fun t => t.set (.string f.id) v)) := by
  let below := s ++ .table mt :: t
  have hbelow : m.base ≤ below.length := by
    rw [List.length_append]
    omega
  have hpushed : (m.holding (below ++ [v]) h).pushText f.text = m.holding (below ++ [v] ++ [.string f.id]) h :=
    pushText_holding hm f
  have hkeyed : Laid m.base (below ++ .string f.id :: [v]) (m.holding (below ++ [.string f.id, v]) h) :=
    laid_holding
  have htabled : Laid m.base (s ++ .table mt :: (t ++ [.string f.id, v]))
      (m.holding (below ++ [.string f.id, v]) h) := by simpa [below] using hkeyed
  have hvalue : Laid m.base ((below ++ [.string f.id]) ++ v :: [])
      (m.holding (below ++ [.string f.id, v]) h) := by simpa using hkeyed
  have htop : (m.holding (below ++ [.string f.id, v]) h).topValue = v :=
    hvalue.value_fromTop (by simp only [List.length_append]; omega) rfl
  have hkey : (m.holding (below ++ [.string f.id, v]) h).value (.fromTop 2) = .string f.id :=
    hkeyed.value_fromTop hbelow rfl
  have habsolute : (m.holding (s ++ .table mt :: t ++ [v]) h).absolute (.fromBottom n) = .fromBottom n := rfl
  have hstored : writeChain (.table mt) (.string f.id) v maxChain host
      (m.holding (below ++ [.string f.id, v]) h) =
        .ok () ((m.holding (below ++ [.string f.id, v]) h).setEntry mt (.string f.id) v) :=
    writeChain_plain hplain
  rw [setField, bind_ok run_get, bind_ok run_modify, hpushed, bind_ok (run_lift.trans (insert_holding hbelow)),
    setTable, bind_ok run_get, habsolute, htabled.value_fromBottom hb hn, hkey, htop, bind_ok hstored,
    run_modify]
  exact congrArg (EStateM.Result.ok ()) (pop_holding (m := m) hbelow)

/-- Installing the properties in a plain table changes nothing but the heap, if no collection comes due on
    the way. -/
theorem installPeer_eq (hm : m.Named) {i : StackIndex} {table : Table} (p : Peer)
    (hl : Laid m.base (s ++ .table mt :: t) m) (hb : m.base ≤ s.length)
    (hi : m.absolute i = .fromBottom n) (hn : m.base + n = s.length + 1)
    (htable : m.heap.tables.get? mt = some table) (hplain : table.metatable = none) (hspares : m.Spares 3) :
    installPeer i p host m = .ok () { m with heap := (m.heap.installed p mt).2.2 } := by
  let below := s ++ .table mt :: t
  have hbelow : m.base ≤ below.length := by
    rw [List.length_append]
    omega
  have hstart : m.holding below m.heap = m := (holding_eq hl.stack).symm
  let reading := m.heap.newFunction ⟨⟨.readProperty p, .host⟩, #[]⟩
  let writing := reading.2.newFunction ⟨⟨.writeProperty p, .host⟩, #[]⟩
  let assigning := writing.2.modifyTable mt fun t => t.set (.string Metafield.newindex.id) (.function writing.1)
  let handling := assigning.newFunction
    ⟨⟨.readPropertyOrField, .host⟩, #[.function reading.1, .table mt]⟩
  have hread : (pushFunction (.readProperty p) 0 .host : Act ScriptError Unit) host m =
      .ok () (m.holding (below ++ [.function reading.1]) reading.2) := by
    rw [← hstart]
    exact pushFunction_bare (hspares.not_due rfl (by omega)) hbelow
  have hwrite : (pushFunction (.writeProperty p) 0 .host : Act ScriptError Unit) host
      (m.holding (below ++ [.function reading.1]) reading.2) =
        .ok () (m.holding (below ++ [.function reading.1] ++ [.function writing.1]) writing.2) :=
    pushFunction_bare (hspares.not_due rfl (Nat.add_lt_add_left (by decide) _))
      (by rw [List.length_append]; omega)
  have hbound : (bindPeer p : Act ScriptError Unit) host m =
      .ok () (m.holding (below ++ [.function reading.1] ++ [.function writing.1]) writing.2) :=
    (bind_ok hread).trans hwrite
  have hassoc : below ++ [.function reading.1] = s ++ .table mt :: (t ++ [.function reading.1]) :=
    List.append_assoc ..
  have hnewindex : setField (.fromBottom n) Metafield.newindex.text host
      (m.holding (below ++ [.function reading.1] ++ [.function writing.1]) writing.2) =
        .ok () (m.holding (below ++ [.function reading.1]) assigning) := by
    rw [hassoc]
    exact setField_holding hm hb hn (Heap.table_of_some htable ▸ hplain) .newindex
  have hpushed : (m.holding (below ++ [.function reading.1]) assigning).pushAt (.fromBottom n) =
      m.holding (below ++ [.function reading.1, .table mt]) assigning := by
    have hvalue : (m.holding (below ++ [.function reading.1]) assigning).value (.fromBottom n) = .table mt := by
      rw [hassoc]
      exact laid_holding.value_fromBottom hb hn
    rw [pushAt_of_value hvalue, push_holding, List.append_assoc]
    rfl
  have hhandle : (pushFunction .readPropertyOrField 2 .host : Act ScriptError Unit) host
      (m.holding (below ++ [.function reading.1, .table mt]) assigning) =
        .ok () (m.holding (below ++ [.function handling.1]) handling.2) :=
    pushFunction_holding (hspares.not_due rfl (Nat.add_lt_add_left (Nat.lt_succ_self 2) _)) hbelow rfl
  have hindex : setField (.fromBottom n) Metafield.index.text host
      (m.holding (below ++ [.function handling.1]) handling.2) =
        .ok () (m.holding below (m.heap.installed p mt).2.2) := by
    refine setField_holding hm hb hn ?_ .index
    rw [show handling.2.table mt = _ from Heap.table_of_some (Heap.tables_modifyTable htable),
      Table.metatable_set]
    exact hplain
  have hvalue : m.value (.fromBottom n) = .table mt := hl.value_fromBottom hb hn
  rw [installPeer, bind_ok run_get]
  simp only [hi, hvalue]
  rw [bind_ok hbound, bind_ok hnewindex, bind_ok run_modify, hpushed, bind_ok hhandle, hindex]
  exact congrArg (EStateM.Result.ok ()) (holding_eq hl.stack).symm

end Act

namespace Machine

variable {m : Machine} {h : Heap Native} {table : Table} {mt : Nat} {p : Peer}

/-- What is installed is the handler that reads the properties. -/
theorem offers_installed (hm : m.heap.Sound) (htable : m.heap.tables.get? mt = some table) (p : Peer) :
    { m with heap := (m.heap.installed p mt).2.2 }.Offers mt p (m.heap.installed p mt).1
      (m.heap.installed p mt).2.1 .host .host where
  index := by
    obtain ⟨writer, hinstalled⟩ := Heap.table_installed htable
    rw [show Heap.table _ mt = _ from hinstalled, Table.get_set_string, if_pos rfl]
  handler := Heap.handler_installed hm
  reader := ⟨_, Heap.reader_installed hm⟩

/-- The other entries of the table stay. -/
theorem get_installed (htable : m.heap.tables.get? mt = some table) {id : StringId}
    (hindex : id ≠ Metafield.index.id) (hnewindex : id ≠ Metafield.newindex.id) :
    ((m.heap.installed p mt).2.2.table mt).get (.string id) = (m.heap.table mt).get (.string id) := by
  obtain ⟨writer, hinstalled⟩ := Heap.table_installed htable
  rw [hinstalled, Table.get_set_string, if_neg hindex, Table.get_set_string, if_neg hnewindex,
    Heap.table_of_some htable]

end Machine

end ScriptHost
