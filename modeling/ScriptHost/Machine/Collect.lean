import ScriptHost.Machine.Call

/-! # Collection

A cycle marks what the roots reach, keeps unreachable userdata that still need their finalizer, and
frees the rest. Then it calls the finalizers, the latest slot first; what they raise is dropped, and
they leave stack and frames as they were. Closing a machine calls the finalizers of all userdata
that still need one.
-/

namespace ScriptHost

namespace Machine

variable (m : Machine)

/-- The values of an active protected call. -/
def guardRoots (g : Guard) : List Value :=
  g.handler.toList ++ match g.decoration with
    | some d => [d.raised, d.outcome]
    | none => []

/-- The values from which everything reachable is reached: all stack slots, registry and globals,
    cached values, and those of active protected calls. -/
def roots : List Value :=
  m.stack.toList ++ [.table m.registry, .table m.globals] ++ m.cache.values
    ++ m.guards.flatMap guardRoots

/-- The same, place by place. -/
inductive IsRoot : Value → Prop where
  | stack {v} : v ∈ m.stack → IsRoot v
  | registry : IsRoot (.table m.registry)
  | globals : IsRoot (.table m.globals)
  | cached {key v} : (key, v) ∈ m.cache.entries → IsRoot v
  | handler {g v} : g ∈ m.guards → g.handler = some v → IsRoot v
  | raised {g d} : g ∈ m.guards → g.decoration = some d → IsRoot d.raised
  | outcome {g d} : g ∈ m.guards → g.decoration = some d → IsRoot d.outcome

/-- The objects that the roots reach. -/
def Reached : Ref → Prop := m.heap.Reaches m.IsRoot

def log (event : Event) : Machine := { m with events := event :: m.events }

/-- Records an event of the userdata in a slot. -/
def note (event : Nat → Event) (slot : Nat) : Machine :=
  match m.heap.userdata? slot with
  | some u => m.log (event u.serial)
  | none => m

def markReachable : Machine :=
  { m with heap := ((m.heap.prepare.markAll m.roots).propagate).2 }.log (.cycle m.Reached)

/-- The unmarked userdata that need their finalizer, by slot. -/
def due : List Nat := m.heap.finalizable Metafield.finalizer.id

/-- Puts slots into the queue of finalizers. -/
def enqueue (slots : List Nat) : Machine :=
  slots.foldl (fun m slot => m.note (.queued slot) slot) m

/-- Marks what userdata that are due reach. -/
def markDue (slots : List Nat) : Machine :=
  let m := m.enqueue slots
  { m with heap := ((m.heap.markAll (slots.map Value.userdata)).propagate).2 }

/-- Frees what is not marked; also the number of objects freed. -/
def sweep : Nat × Machine :=
  let (freed, heap) := m.heap.sweep
  (freed, { m with heap })

/-- A cycle without its finalizers: what is due, the number of objects freed, and the machine
    after it. -/
def cycle : List Nat × Nat × Machine :=
  let m := m.markReachable
  let queue := m.due
  (queue, (m.markDue queue).sweep)

/-- A machine that is being closed: what is due, and the machine without stack, frames and
    guards. -/
def shut : List Nat × Machine :=
  let m := { m with stack := #[], frames := [], guards := [], heap := m.heap.prepare }.log .closing
  let queue := m.due
  (queue, { m.enqueue queue with closed := true })

/-- Starts the turn of a queued userdata, which counts as finalized from then on. -/
def beginTurn (slot : Nat) : Machine :=
  { m with heap := m.heap.setFinalized slot }.log (.turn slot)

end Machine

namespace Act

/-- Gives a userdata its turn in the queue of finalizers: if the `__gc` field of its metatable is a
    function, that is called. A guard without a handler keeps outer message handlers away. -/
def finalize {ε : Type} (slot : Nat) : Act ε Unit := do
  modify (·.beginTurn slot)
  let m ← get
  match m.metafield (.userdata slot) .finalizer with
  | .function f =>
      let position := m.stack.size
      let depth := m.depth
      modify fun m => (m.push (.function f)).push (.userdata slot)
      modify (·.pushGuard {})
      if !(← get).atLimit then modify (·.note (.finalizing slot) slot)
      let _ ← attempt (callAt position 0)
      modify fun m => (m.popGuard.truncateFrames depth).truncate position
  | _ => pure ()

/-- Gives queued userdata their turns, the last of the queue first. -/
def finalizeAll {ε : Type} (queue : List Nat) : Act ε Unit := queue.reverse.forM finalize

/-- Runs a full cycle and then the finalizers that it found due; the number of objects freed. A
    closed machine has no cycles. -/
def collect {ε : Type} : Act ε Nat := do
  if (← get).closed then pure 0
  else
    let (queue, freed) ← modifyGet fun m =>
      let (queue, freed, m) := m.cycle
      ((queue, freed), m)
    finalizeAll queue
    pure freed

def collectIfDue {ε : Type} : Act ε Unit := do
  if (← get).heap.isDue then
    let _ ← collect

/-- Ends the use of a machine: drops stack, frames and guards, and runs the finalizers of all
    userdata that need one. Nothing happens the second time. -/
def close {ε : Type} : Act ε Unit := do
  if !(← get).closed then
    let queue ← modifyGet Machine.shut
    finalizeAll queue
    modify fun m => { m with cache := m.cache.clear }

/-! ## Allocation -/

/-- Pushes a new function with the top values as upvalues. -/
def pushFunction {ε : Type} (behaviour : Behaviour) (upvalues : Nat) (origin : Origin) :
    Act ε Unit := do
  collectIfDue
  modify fun m =>
    let first := m.stack.size - min upvalues m.top
    let captured := m.stack.extract first m.stack.size
    let (slot, heap) := m.heap.newFunction { body := { behaviour, origin }, upvalues := captured }
    ({ m with heap }.truncate first).push (.function slot)

/-- Pushes a native function without upvalues. -/
def pushNative {ε : Type} (code : NativeCode) (origin : Origin := .host) : Act ε Unit :=
  pushFunction (.code code) 0 origin

def newTable {ε : Type} : Act ε Unit := do
  collectIfDue
  modify fun m =>
    let (slot, heap) := m.heap.newTable
    { m with heap }.push (.table slot)

/-- Pushes a new userdata with a block of zeros; the address of the block. -/
def newUserdata {ε : Type} (size : Nat) : Act ε Address := do
  collectIfDue
  modifyGet fun m =>
    let (slot, heap) := m.heap.newUserdata size
    let address := ((heap.userdata? slot).map (·.address)).getD 0
    (address, { m with heap }.push (.userdata slot))

end Act

end ScriptHost
