import ScriptHost.Heap.Arena
import ScriptHost.Heap.Marking
import ScriptHost.Memory
import ScriptHost.Table

/-! # The heap

Four arenas of objects: tables, functions, userdata and boxed integers. A cycle of the collector
prepares marks, marks what is reachable and sweeps the rest away. Functions carry a payload that
the heap does not look into.
-/

namespace ScriptHost

/-- A function object: what it does and the values it captures. -/
structure Closure (β : Type) where
  body : β
  upvalues : Array Value
  deriving Inhabited

/-- A full userdata: a block of memory that scripts hold. -/
structure Userdata where
  /-- Creation order: a later userdata has a larger serial. -/
  serial : Nat
  /-- The address of its block. -/
  address : Address
  size : Nat
  metatable : Option Nat := none
  userValue : Value := .nil
  deriving Repr, Inhabited

/-- The objects of a machine and the state of its collector. -/
structure Heap (β : Type) where
  tables : Arena Table := {}
  functions : Arena (Closure β) := {}
  userdata : Arena Userdata := {}
  boxed : Arena Int := {}
  /-- For each userdata slot, whether the finalizer of its object has had its turn. -/
  finalized : Array Bool := #[]
  /-- What the current cycle has marked. -/
  marking : Marking := {}
  /-- Allocations since the last cycle. -/
  allocations : Nat := 0
  /-- A cycle is due after this many allocations, if at all. -/
  interval : Option Nat := none
  /-- The serial of the next userdata. -/
  nextSerial : Nat := 0
  memory : Memory := {}
  deriving Inhabited

namespace Heap

variable {β : Type} (h : Heap β)

/-! ## Allocation -/

def newTable (t : Table := {}) : Nat × Heap β :=
  let (slot, tables) := h.tables.insert t
  (slot, { h with tables, allocations := h.allocations + 1 })

def newFunction (f : Closure β) : Nat × Heap β :=
  let (slot, functions) := h.functions.insert f
  (slot, { h with functions, allocations := h.allocations + 1 })

def newBoxed (i : Int) : Nat × Heap β :=
  let (slot, boxed) := h.boxed.insert i
  (slot, { h with boxed, allocations := h.allocations + 1 })

/-- A new userdata with a block of zeros; its slot starts unfinalized. -/
def newUserdata (size : Nat) : Nat × Heap β :=
  let (address, memory) := h.memory.allocateZeroed .userdata size
  let (slot, userdata) := h.userdata.insert { serial := h.nextSerial, address, size }
  let finalized :=
    if slot < h.finalized.size then h.finalized.setIfInBounds slot false
    else h.finalized ++ Array.replicate (slot + 1 - h.finalized.size) false
  (slot, { h with
    userdata, finalized, memory
    nextSerial := h.nextSerial + 1
    allocations := h.allocations + 1 })

/-- An integer as a value; one that does not fit inline is boxed. -/
def ofInt (i : Int) : Value × Heap β :=
  if Value.fitsInline i then (.int i, h)
  else
    let (slot, h) := h.newBoxed i
    (.boxed slot, h)

/-! ## Access -/

def table (slot : Nat) : Table := (h.tables.get? slot).getD {}

def modifyTable (slot : Nat) (f : Table → Table) : Heap β :=
  { h with tables := h.tables.modify slot f }

def modifyUserdata (slot : Nat) (f : Userdata → Userdata) : Heap β :=
  { h with userdata := h.userdata.modify slot f }

def userdata? (slot : Nat) : Option Userdata := h.userdata.get? slot

def function? (slot : Nat) : Option (Closure β) := h.functions.get? slot

def pushUpvalue (slot : Nat) (v : Value) : Heap β :=
  { h with functions := h.functions.modify slot fun f => { f with upvalues := f.upvalues.push v } }

def setUpvalue (slot position : Nat) (v : Value) : Heap β :=
  { h with functions := h.functions.modify slot fun f =>
      { f with upvalues := f.upvalues.setIfInBounds position v } }

/-- The integer of a value, inline or boxed. -/
def toInt? : Value → Option Int
  | .int i => some i
  | .boxed slot => h.boxed.get? slot
  | .foreign w =>
      match Ref.ofWord? w with
      | some ⟨.boxed, slot⟩ => h.boxed.get? slot
      | _ => none
  | _ => none

/-- The number of a value as a double. -/
def toDouble? : Value → Option Double
  | .float d => some d
  | v => (h.toInt? v).map Double.ofInt

/-- The key that a value names; a boxed integer names its integer. -/
def key? (v : Value) : Option Key :=
  match h.toInt? v with
  | some i => some (.integer i)
  | none => Key.ofValue? v

def live : Nat := h.tables.live + h.functions.live + h.userdata.live + h.boxed.live

/-! ## Collection -/

def isDue : Bool :=
  match h.interval with
  | some n => n ≤ h.allocations
  | none => false

/-- Starts a cycle with nothing marked. -/
def prepare : Heap β :=
  { h with marking := {
      marks := {
        tables := Array.replicate h.tables.slots.size false
        functions := Array.replicate h.functions.slots.size false
        userdata := Array.replicate h.userdata.slots.size false
        boxed := Array.replicate h.boxed.slots.size false }
      pending := [] } }

def mark (v : Value) : Heap β := { h with marking := h.marking.visit v }

def markAll (vs : List Value) : Heap β := { h with marking := h.marking.visitAll vs }

/-- Whether a value is marked or needs no mark. -/
def isMarked (v : Value) : Bool :=
  match v.ref? with
  | some r => h.marking.marks.contains r
  | none => true

/-- The values that an object holds. -/
def references (r : Ref) : List Value :=
  match r.kind with
  | .table =>
      match h.tables.get? r.slot with
      | some t => (t.metatable.map Value.table).toList ++ t.references
      | none => []
  | .function => ((h.functions.get? r.slot).map (·.upvalues.toList)).getD []
  | .userdata =>
      match h.userdata.get? r.slot with
      | some u => (u.metatable.map Value.table).toList ++ [u.userValue]
      | none => []
  | .boxed => []

/-- What an object holds: the values, keys and metatable of a table, the upvalues of a function, the
    metatable and user value of a userdata. A key counts as long as it has a value. -/
inductive Holds : Ref → Value → Prop where
  | item {slot t v} : h.tables.get? slot = some t → v ∈ t.array → Holds ⟨.table, slot⟩ v
  | entry {slot t k v} : h.tables.get? slot = some t → (k, v) ∈ t.entries → Holds ⟨.table, slot⟩ v
  | objectKey {slot t r v} : h.tables.get? slot = some t → (.object r, v) ∈ t.entries →
      v.isNil = false → Holds ⟨.table, slot⟩ (.object r)
  | foreignKey {slot t w v} : h.tables.get? slot = some t → (.foreign w, v) ∈ t.entries →
      v.isNil = false → Holds ⟨.table, slot⟩ (.foreign w)
  | tableMeta {slot t mt} : h.tables.get? slot = some t → t.metatable = some mt →
      Holds ⟨.table, slot⟩ (.table mt)
  | upvalue {slot f v} : h.functions.get? slot = some f → v ∈ f.upvalues →
      Holds ⟨.function, slot⟩ v
  | userMeta {slot u mt} : h.userdata.get? slot = some u → u.metatable = some mt →
      Holds ⟨.userdata, slot⟩ (.table mt)
  | userValue {slot u} : h.userdata.get? slot = some u → Holds ⟨.userdata, slot⟩ u.userValue

/-- The objects that some values lead to, directly or through what objects hold. -/
inductive Reaches (start : Value → Prop) : Ref → Prop where
  | start {v r} : start v → v.ref? = some r → Reaches start r
  | step {r v r'} : Reaches start r → h.Holds r v → v.ref? = some r' → Reaches start r'

/-- Marks everything that marked objects reach; also the number of objects followed. -/
def propagate : Nat × Heap β :=
  let (n, marking) := h.marking.drain h.references
  (n, { h with marking })

/-- Whether the metatable of a userdata has an entry under a name. -/
def hasMetaEntry (u : Userdata) (name : StringId) : Bool :=
  match u.metatable.bind h.tables.get? with
  | some mt => !(mt.get (.string name)).isNil
  | none => false

def isFinalized (slot : Nat) : Bool := h.finalized[slot]?.getD false

/-- Records that the finalizer of a userdata has had its turn. -/
def setFinalized (slot : Nat) : Heap β :=
  { h with finalized := h.finalized.setIfInBounds slot true }

/-- The unmarked userdata that still need their finalizer, by slot: not finalized and with an
    entry under `name` in the metatable. -/
def finalizable (name : StringId) : List Nat :=
  h.userdata.occupied.filterMap fun (slot, u) =>
    if h.marking.marks.contains ⟨.userdata, slot⟩ || h.isFinalized slot then none
    else if h.hasMetaEntry u name then some slot
    else none

/-- Frees what is not marked; also the number of objects freed. -/
def sweep : Nat × Heap β :=
  let marks := h.marking.marks
  let userdata := h.userdata.garbage marks.userdata
  let freed :=
    (h.tables.garbage marks.tables).length + (h.functions.garbage marks.functions).length
      + userdata.length + (h.boxed.garbage marks.boxed).length
  (freed, { h with
    tables := h.tables.sweep marks.tables
    functions := h.functions.sweep marks.functions
    userdata := h.userdata.sweep marks.userdata
    boxed := h.boxed.sweep marks.boxed
    memory := h.memory.free (userdata.map (·.2.address))
    allocations := 0 })

end Heap

end ScriptHost
