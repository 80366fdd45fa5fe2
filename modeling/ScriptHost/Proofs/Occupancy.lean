import ScriptHost.Proofs.Tracing

/-! # Occupied and empty slots over a history of operations

Any sequence of allocations, changes of objects and phases of the collector is a history, complete
cycles or not. Each operation keeps the invariant of the heap, and from the invariant follow what an
allocation and a sweep do at any point and the count of the objects after all of them.
-/

namespace ScriptHost.Heap

variable {β : Type}

/-! ## Allocations -/

/-- A request for a new object. -/
inductive Allocation (β : Type) where
  | table (t : Table)
  | function (f : Closure β)
  | userdata (size : Nat)
  | boxed (i : Int)

namespace Allocation

def kind : Allocation β → ObjectKind
  | .table _ => .table
  | .function _ => .function
  | .userdata _ => .userdata
  | .boxed _ => .boxed

/-- The slot of the new object, and the heap with it. -/
def run (h : Heap β) : Allocation β → Nat × Heap β
  | .table t => h.newTable t
  | .function f => h.newFunction f
  | .userdata size => h.newUserdata size
  | .boxed i => h.newBoxed i

/-- The new object. -/
def ref (a : Allocation β) (h : Heap β) : Ref := ⟨a.kind, (a.run h).1⟩

/-- What the new object holds; the block of a userdata is zeroed. -/
def contents (h : Heap β) : Allocation β → Contents β
  | .table t => .table t
  | .function f => .function f
  | .userdata size =>
      .userdata { serial := h.nextSerial, address := h.memory.frontier, size }
        (some (Array.replicate size 0))
  | .boxed i => .boxed i

variable {h : Heap β} {r : Ref}

theorem run_sound (hs : h.Sound) (a : Allocation β) : (a.run h).2.Sound := by
  cases a with
  | table t => exact hs.of_eq (Arena.insert_sound hs.tables) hs.functions hs.boxed rfl rfl rfl rfl
  | function f => exact (Change.newFunction f).sound hs
  | userdata size => exact (Change.newUserdata size).sound hs
  | boxed i => exact (Change.newBoxed i).sound hs

/-- A new object takes the place of no other. -/
theorem contents?_ref (hs : h.Sound) (a : Allocation β) : h.contents? (a.ref h) = none := by
  cases a with
  | table t => exact Option.map_eq_none_iff.mpr (Arena.get?_insert_slot hs.tables)
  | function f => exact Option.map_eq_none_iff.mpr (Arena.get?_insert_slot hs.functions)
  | userdata size => exact Option.map_eq_none_iff.mpr (Arena.get?_insert_slot hs.userdata)
  | boxed i => exact Option.map_eq_none_iff.mpr (Arena.get?_insert_slot hs.boxed)

/-- A new object of an arena as seen from the heap. -/
theorem map_get?_insert {α : Type} {a : Arena α} (ha : a.Sound) (x : α) (kind : ObjectKind)
    (f : α → Contents β) (slot : Nat) : ((a.insert x).2.get? slot).map f =
      if (⟨kind, slot⟩ : Ref) = ⟨kind, (a.insert x).1⟩ then some (f x) else (a.get? slot).map f := by
  rw [Arena.get?_insert ha]
  by_cases hs : slot = (a.insert x).1
  · rw [if_pos hs, if_pos (by rw [hs])]
    rfl
  · rw [if_neg hs, if_neg (by simpa using hs)]

/-- Userdata keep their bytes when another gets its block. -/
theorem block_newUserdata (hs : h.Sound) {size slot : Nat} {u : Userdata}
    (hu : h.userdata? slot = some u) :
    (h.newUserdata size).2.memory.blockAt? u.address = h.memory.blockAt? u.address := by
  obtain ⟨b, hb, hbase, -, -⟩ := hs.block hu
  have hat := hbase ▸ Memory.blockAt?_base hs.memory hb
  rw [hat]
  exact Memory.blockAt?_allocate hs.memory hat

theorem contents?_newUserdata (hs : h.Sound) (size slot : Nat) :
    (h.newUserdata size).2.contents? ⟨.userdata, slot⟩ =
      if (⟨.userdata, slot⟩ : Ref) = ⟨.userdata, (h.newUserdata size).1⟩ then
        some ((userdata size).contents h)
      else h.contents? ⟨.userdata, slot⟩ := by
  have hget := newUserdata_userdata? size slot hs
  simp only [userdata?] at hget
  simp only [contents?, hget, Ref.mk.injEq, true_and]
  split
  · have hnew : (h.newUserdata size).2.memory.blockAt? h.memory.frontier =
        some ⟨h.memory.frontier, .userdata, Array.replicate size 0⟩ :=
      Memory.blockAt?_base (Memory.allocate_sound hs.memory) List.mem_cons_self
    simp [hnew, contents]
  · cases hu : h.userdata.get? slot with
    | none => rfl
    | some u => rw [Option.map_some, Option.map_some, block_newUserdata hs hu]

/-- The object is there with what it should hold, and every other object is as before. -/
theorem contents?_run (hs : h.Sound) (a : Allocation β) :
    (a.run h).2.contents? r = if r = a.ref h then some (a.contents h) else h.contents? r := by
  obtain ⟨k, slot⟩ := r
  cases a with
  | table t =>
      cases k with
      | table => exact map_get?_insert hs.tables t .table Contents.table slot
      | function | userdata | boxed => rfl
  | function f =>
      cases k with
      | function => exact map_get?_insert hs.functions f .function Contents.function slot
      | table | userdata | boxed => rfl
  | userdata size =>
      cases k with
      | userdata => exact contents?_newUserdata hs size slot
      | table | function | boxed => rfl
  | boxed i =>
      cases k with
      | boxed => exact map_get?_insert hs.boxed i .boxed Contents.boxed slot
      | table | function | userdata => rfl

theorem live_run (hs : h.Sound) (a : Allocation β) : (a.run h).2.live = h.live + 1 := by
  cases a with
  | table t =>
      have hlive := Arena.live_insert (x := t) hs.tables
      simp only [run, newTable, live, hlive]
      omega
  | function f =>
      have hlive := Arena.live_insert (x := f) hs.functions
      simp only [run, newFunction, live, hlive]
      omega
  | userdata size =>
      have hlive := Arena.live_insert
        (x := ({ serial := h.nextSerial, address := h.memory.frontier, size } : Userdata))
        hs.userdata
      have hrun : ((userdata size).run h).2.live = h.tables.live + h.functions.live +
          (h.userdata.insert { serial := h.nextSerial, address := h.memory.frontier, size }).2.live +
          h.boxed.live := rfl
      rw [hrun, hlive, live]
      omega
  | boxed i =>
      have hlive := Arena.live_insert (x := i) hs.boxed
      simp only [run, newBoxed, live, hlive]
      omega

end Allocation

/-! ## Operations -/

/-- What can happen to a heap. -/
inductive Operation (β : Type) where
  | allocate (a : Allocation β)
  | table (slot : Nat) (f : Table → Table)
  | metatable (slot : Nat) (metatable : Option Nat)
  | userValue (slot : Nat) (v : Value)
  | pushUpvalue (slot : Nat) (v : Value)
  | setUpvalue (slot position : Nat) (v : Value)
  | write (address : Address) (bytes : Bytes)
  | setFinalized (slot : Nat)
  | prepare
  | mark (v : Value)
  | propagate
  | sweep

namespace Operation

def run (h : Heap β) : Operation β → Heap β
  | .allocate a => (a.run h).2
  | .table slot f => h.modifyTable slot f
  | .metatable slot mt => h.modifyUserdata slot fun u => { u with metatable := mt }
  | .userValue slot v => h.modifyUserdata slot fun u => { u with userValue := v }
  | .pushUpvalue slot v => h.pushUpvalue slot v
  | .setUpvalue slot position v => h.setUpvalue slot position v
  | .write address bytes => { h with memory := h.memory.write address bytes }
  | .setFinalized slot => h.setFinalized slot
  | .prepare => h.prepare
  | .mark v => h.mark v
  | .propagate => h.propagate.2
  | .sweep => h.sweep.2

/-- The number of objects that an operation adds. -/
def allocated : Operation β → Nat
  | .allocate _ => 1
  | _ => 0

/-- The number of objects that an operation reports as freed. -/
def freed (h : Heap β) : Operation β → Nat
  | .sweep => h.sweep.1
  | _ => 0

variable {h : Heap β}

theorem run_sound (hs : h.Sound) (op : Operation β) : (op.run h).Sound := by
  cases op with
  | allocate a => exact a.run_sound hs
  | table slot f =>
      exact hs.of_eq (Arena.modify_sound hs.tables) hs.functions hs.boxed rfl rfl rfl rfl
  | metatable slot mt => exact (Change.userMeta slot mt).sound hs
  | userValue slot v => exact (Change.userValue slot v).sound hs
  | pushUpvalue | setUpvalue =>
      exact hs.of_eq hs.tables (Arena.modify_sound hs.functions) hs.boxed rfl rfl rfl rfl
  | write address bytes => exact (Change.write address bytes).sound hs
  | setFinalized slot => exact sound_setFinalized hs
  | prepare | mark | propagate => exact hs.of_eq hs.tables hs.functions hs.boxed rfl rfl rfl rfl
  | sweep => exact sweep_sound hs

/-- Only allocations and sweeps change the number of objects. -/
theorem live_run (hs : h.Sound) (op : Operation β) :
    (op.run h).live + op.freed h = h.live + op.allocated := by
  cases op with
  | allocate a => exact a.live_run hs
  | table slot f => simp [run, modifyTable, live, Arena.live_modify, freed, allocated]
  | metatable | userValue => simp [run, modifyUserdata, live, Arena.live_modify, freed, allocated]
  | pushUpvalue => simp [run, Heap.pushUpvalue, live, Arena.live_modify, freed, allocated]
  | setUpvalue => simp [run, Heap.setUpvalue, live, Arena.live_modify, freed, allocated]
  | write | setFinalized | prepare | mark | propagate => rfl
  | sweep => exact (Nat.add_comm _ _).trans live_sweep

end Operation

/-! ## Histories -/

/-- A heap with the objects allocated and freed so far. -/
structure History (β : Type) where
  heap : Heap β := {}
  allocated : Nat := 0
  freed : Nat := 0

namespace History

def next (t : History β) (op : Operation β) : History β where
  heap := op.run t.heap
  allocated := t.allocated + op.allocated
  freed := t.freed + op.freed t.heap

/-- The history of a sequence of operations on an empty heap. -/
def of (ops : List (Operation β)) : History β := ops.foldl next {}

/-- What every operation preserves. -/
structure Balanced (t : History β) : Prop where
  sound : t.heap.Sound
  balance : t.heap.live + t.freed = t.allocated

theorem balanced_empty : Balanced ({} : History β) := ⟨sound_empty, rfl⟩

theorem Balanced.next {t : History β} (ht : t.Balanced) (op : Operation β) : (t.next op).Balanced := by
  refine ⟨op.run_sound ht.sound, ?_⟩
  have hlive := op.live_run ht.sound
  have hbalance := ht.balance
  simp only [History.next]
  omega

theorem balanced (ops : List (Operation β)) : (of ops).Balanced :=
  List.foldlRecOn ops next balanced_empty fun _ ht op _ => ht.next op

end History

/-- A sweep frees the unmarked objects, each once, and keeps the others as they are. -/
theorem contents?_sweep_unmarked {h : Heap β} (hs : h.Sound) (r : Ref) :
    h.sweep.2.contents? r = if r ∈ h.unmarkedRefs then none else h.contents? r := by
  rw [contents?_sweep hs]
  have hmem := mem_unmarkedRefs (h := h) (s := r)
  by_cases hmark : h.marking.marks.contains r = true
  · rw [if_pos hmark, if_neg fun hr => (hmem.mp hr).2 hmark]
  · rw [if_neg hmark]
    cases hr : h.contents? r with
    | none => rw [ite_self]
    | some c => rw [if_pos (hmem.mpr ⟨by simp [hr], hmark⟩)]

/-- A new userdata is not finalized and has neither metatable nor user value, whatever its slot held
    before. -/
theorem newUserdata_blank {h : Heap β} (hs : h.Sound) (size : Nat) :
    (h.newUserdata size).2.isFinalized (h.newUserdata size).1 = false ∧
      ∃ u, (h.newUserdata size).2.userdata? (h.newUserdata size).1 = some u ∧
        u.metatable = none ∧ u.userValue = .nil := by
  rw [newUserdata_isFinalized, if_pos rfl, newUserdata_userdata? size _ hs, if_pos rfl]
  exact ⟨rfl, _, rfl, rfl, rfl⟩

/-- The flag outlives a userdata that is swept away, but not the use of its slot by a new one. -/
example :
    let h : Heap Unit := ((({} : Heap Unit).newUserdata 8).2.setFinalized 0).prepare.sweep.2
    h.userdata.free = [0] ∧ h.isFinalized 0 = true ∧
      (h.newUserdata 4).1 = 0 ∧ (h.newUserdata 4).2.isFinalized 0 = false := by
  decide

/-- After any sequence of operations the free slots of each arena are the empty ones, each listed
    once. An allocation fills a slot that was empty, leaves all other objects as they are and adds
    one to their number; a userdata starts blank. A sweep frees exactly the unmarked objects, each
    once, and reports their number. Over the whole history the objects there are and those freed
    make up those allocated. -/
theorem slots_of_operations (ops : List (Operation β)) :
    let h := (History.of ops).heap
    (h.tables.Sound ∧ h.functions.Sound ∧ h.userdata.Sound ∧ h.boxed.Sound) ∧
    (∀ a : Allocation β, h.contents? (a.ref h) = none ∧
      (∀ r, (a.run h).2.contents? r =
        if r = a.ref h then some (a.contents h) else h.contents? r) ∧
      (a.run h).2.live = h.live + 1) ∧
    (∀ size, (h.newUserdata size).2.isFinalized (h.newUserdata size).1 = false ∧
      ∃ u, (h.newUserdata size).2.userdata? (h.newUserdata size).1 = some u ∧
        u.metatable = none ∧ u.userValue = .nil) ∧
    (h.unmarkedRefs.Nodup ∧ h.unmarkedRefs.length = h.sweep.1 ∧
      (∀ r, r ∈ h.unmarkedRefs ↔ h.contents? r ≠ none ∧ ¬ h.marking.Marked r) ∧
      (∀ r, h.sweep.2.contents? r = if r ∈ h.unmarkedRefs then none else h.contents? r) ∧
      h.sweep.1 + h.sweep.2.live = h.live) ∧
    h.live + (History.of ops).freed = (History.of ops).allocated := by
  intro h
  have ht := History.balanced ops
  have hs : h.Sound := ht.sound
  refine ⟨⟨hs.tables, hs.functions, hs.userdata, hs.boxed⟩, ?_, newUserdata_blank hs, ?_,
    ht.balance⟩
  · exact fun a => ⟨a.contents?_ref hs, fun _ => a.contents?_run hs, a.live_run hs⟩
  · exact ⟨unmarkedRefs_nodup, sweep_freed.symm, fun _ => mem_unmarkedRefs,
      contents?_sweep_unmarked hs, live_sweep⟩

end ScriptHost.Heap
