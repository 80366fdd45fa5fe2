import ScriptHost.Machine

/-! # The value stack

Resolving indices and moving values. A frame reaches only values above its base; indices that name
no value read as nil and cannot be stored to.
-/

namespace ScriptHost

namespace Machine

variable (m : Machine)

/-- The first stack position of the running frame. -/
def base : Nat :=
  match m.frames with
  | [] => 0
  | f :: _ => f.base

/-- The number of values of the running frame. -/
def top : Nat := m.stack.size - m.base

/-- The number of active native calls. -/
def depth : Nat := m.frames.length

/-- The stack position that an index names. -/
def position? : StackIndex → Option Nat
  | .fromBottom n =>
      if 1 ≤ n ∧ m.base + n ≤ m.stack.size then some (m.base + n - 1) else none
  | .fromTop n => if 1 ≤ n ∧ n ≤ m.top then some (m.stack.size - n) else none
  | _ => none

/-- Whether an index names a value or a place outside the stack. -/
def isValid (i : StackIndex) : Bool := i.isPseudo || (m.position? i).isSome

/-- An index that keeps its meaning while values are pushed and popped. -/
def absolute : StackIndex → StackIndex
  | .fromTop n => if n ≤ m.top then .fromBottom (m.top + 1 - n) else .fromTop n
  | i => i

/-- The slot of the running function. -/
def runningFunction? : Option Nat :=
  match m.frames with
  | [] => none
  | f :: _ =>
      match m.stack[f.function]? with
      | some (.function slot) => some slot
      | _ => none

/-- The `n`-th upvalue of the running function, from 1 on. -/
def upvalue? (n : Nat) : Option Value :=
  if n = 0 then none
  else (m.runningFunction?.bind m.heap.function?).bind fun f => f.upvalues[n - 1]?

/-- The value that an index names; nil if it names none. -/
def value (i : StackIndex) : Value :=
  match i with
  | .registry => .table m.registry
  | .environment => .table m.globals
  | .upvalue n => (m.upvalue? n).getD .nil
  | i => ((m.position? i).bind fun p => m.stack[p]?).getD .nil

def topValue : Value := m.value .top

/-- The type of what an index names. -/
def kindAt (i : StackIndex) : ValueKind :=
  if m.isValid i then (m.value i).kind else .absent

def push (v : Value) : Machine := { m with stack := m.stack.push v }

/-- Cuts the stack to a number of slots, or fills it up with nils. -/
def resize (n : Nat) : Machine :=
  if n ≤ m.stack.size then { m with stack := m.stack.shrink n }
  else
    let missing := n - m.stack.size
    { m with stack := m.stack ++ Array.replicate missing .nil }

/-- Cuts the stack to a number of slots if it has more. -/
def truncate (n : Nat) : Machine := { m with stack := m.stack.shrink n }

/-- Gives the running frame a number of values. -/
def setTop (n : Nat) : Machine := m.resize (m.base + n)

/-- Drops values of the running frame from the top. -/
def pop (n : Nat) : Machine := m.truncate (max (m.stack.size - n) m.base)

def putAt (p : Nat) (v : Value) : Machine := { m with stack := m.stack.setIfInBounds p v }

/-- Puts a value below the one at a stack position. -/
def insertAt (p : Nat) (v : Value) : Machine :=
  { m with stack := m.stack.insertIdxIfInBounds p v }

/-- Takes the value out of a stack position. -/
def eraseAt (p : Nat) : Machine := { m with stack := m.stack.eraseIdxIfInBounds p }

/-- Whether so many more values fit; the sum is a 64-bit number. -/
def hasRoom (n : Nat) : Bool := (m.stack.size + n) % 2 ^ 64 ≤ m.limits.stackSlots

/-- The number of an interned string. -/
def intern (bytes : Bytes) : StringId × Machine :=
  let (id, strings) := m.strings.intern bytes
  (id, { m with strings })

def ofInt (i : Int) : Value × Machine :=
  let (v, heap) := m.heap.ofInt i
  (v, { m with heap })

/-- Pushes a copy of what an index names. -/
def pushAt (i : StackIndex) : Machine := m.push (m.value i)

/-- Pushes an integer, boxed if it has to be. -/
def pushInt (i : Int) : Machine :=
  let (v, m) := m.ofInt i
  m.push v

def pushBytes (bytes : Bytes) : Machine :=
  let (id, m) := m.intern bytes
  m.push (.string id)

def pushText (text : String) : Machine := m.pushBytes (Utf8.encode text)

/-- Moves the top value below the one at a stack position. -/
def sinkTop (p : Nat) : Machine :=
  match m.stack.back? with
  | some v => { m with stack := m.stack.pop.insertIdxIfInBounds p v }
  | none => m

end Machine

namespace Op

def pushLight (a : Address) : Op ScriptError Unit :=
  match Value.light? a with
  | some v => modify (·.push v)
  | none => fail (.addressTooLarge a)

/-- The stack position of an index that must name a value. -/
def position (i : StackIndex) : Op ScriptError Nat := do
  match (← get).position? i with
  | some p => pure p
  | none => fail (.invalidIndex i)

/-- Moves the top value to where an index points. -/
def insert (i : StackIndex) : Op ScriptError Unit := do
  let p ← position i
  modify (·.sinkTop p)

/-- Takes out the value at an index. -/
def remove (i : StackIndex) : Op ScriptError Unit := do
  let p ← position i
  modify (·.eraseAt p)

/-- Stores a value where an index points. -/
def store (i : StackIndex) (v : Value) : Op ScriptError Unit := do
  match i with
  | .upvalue n =>
      let m ← get
      match m.runningFunction? with
      | none => fail .noRunningFunction
      | some slot =>
          let count := ((m.heap.function? slot).map (·.upvalues.size)).getD 0
          if n = 0 ∨ count < n then fail (.invalidUpvalue n)
          else modify fun m => { m with heap := m.heap.setUpvalue slot (n - 1) v }
  | .environment =>
      match v with
      | .table slot => modify fun m => { m with globals := slot }
      | _ => fail .environmentNotTable
  | .registry => fail .registryIsFixed
  | i =>
      let p ← position i
      modify (·.putAt p v)

/-- Moves the top value over the one at an index. -/
def replace (i : StackIndex) : Op ScriptError Unit := do
  let m ← get
  store (m.absolute i) m.topValue
  modify (·.pop 1)

end Op

end ScriptHost
