import ScriptHost.Machine.Collect
import ScriptHost.Machine.RawTable

/-! # Indexing through metatables

Reading and assigning entries with the `__index` and `__newindex` fields of metatables. A field that
is a function is called; any other value is indexed in turn, up to a bound.
-/

namespace ScriptHost

/-- How many values an access may pass through. -/
def maxChain : Nat := 100

/-- The outcome of looking at one value of a chain. -/
inductive Hop (α : Type) where
  /-- The access ends here. -/
  | done (a : α)
  /-- A function decides. -/
  | handler (slot : Nat)
  /-- The access goes on at another value. -/
  | follow (v : Value)
  deriving DecidableEq, Repr

namespace Hop

/-- A metafield that is not nil is called if it is a function and followed otherwise. -/
def through {α : Type} : Value → Hop α
  | .function slot => .handler slot
  | v => .follow v

end Hop

namespace Machine

variable (m : Machine)

/-- Looks a key up in one value; `error` if it cannot be indexed. -/
def readHop (v key : Value) : Except Fault (Hop Value) :=
  let field := m.metafield v .index
  match v with
  | .table slot =>
      let entry := m.rawGet slot key
      if entry.isNil && !field.isNil then .ok (.through field) else .ok (.done entry)
  | v => if field.isNil then .error (.notIndexable (m.describe v)) else .ok (.through field)

/-- Finds the table that one value assigns a key to; `error` if it cannot be indexed. -/
def writeHop (v key : Value) : Except Fault (Hop Nat) :=
  let field := m.metafield v .newindex
  match v with
  | .table slot =>
      if field.isNil || !(m.rawGet slot key).isNil then .ok (.done slot) else .ok (.through field)
  | v => if field.isNil then .error (.notIndexable (m.describe v)) else .ok (.through field)

end Machine

namespace Act

/-- The value of a key in a value, through at most so many values. -/
def readChain (v key : Value) : Nat → Act ScriptError Value
  | 0 => fail .indexChainTooLong
  | fuel + 1 => do
      let m ← get
      match m.readHop v key with
      | .error f => fail f
      | .ok (.done entry) => pure entry
      | .ok (.follow next) => readChain next key fuel
      | .ok (.handler slot) =>
          let position := m.stack.size
          modify fun m => ((m.push (.function slot)).push v).push key
          callAt position 1
          let result := (← get).stack[position]?.getD .nil
          modify (·.truncate position)
          pure result

/-- Assigns a value to a key of a value, through at most so many values. -/
def writeChain (v key new : Value) : Nat → Act ScriptError Unit
  | 0 => fail .newindexChainTooLong
  | fuel + 1 => do
      let m ← get
      match m.writeHop v key with
      | .error f => fail f
      | .ok (.done slot) => Op.rawStore slot key new
      | .ok (.follow next) => writeChain next key new fuel
      | .ok (.handler slot) =>
          let position := m.stack.size
          modify fun m => (((m.push (.function slot)).push v).push key).push new
          callAt position 0
          modify (·.truncate position)

/-- Replaces the key on top by its value in the value at an index. -/
def getTable (i : StackIndex) : Act ScriptError ValueKind := do
  let m ← get
  let v ← readChain (m.value i) m.topValue maxChain
  modify fun m => (m.pop 1).push v
  pure v.kind

/-- Pushes the value of a name in the value at an index. -/
def getField (i : StackIndex) (name : String) : Act ScriptError ValueKind := do
  let i := (← get).absolute i
  modify (·.pushText name)
  getTable i

/-- Assigns the top value to the key below it in the value at an index, and pops both. -/
def setTable (i : StackIndex) : Act ScriptError Unit := do
  let m ← get
  writeChain (m.value i) (m.value (.fromTop 2)) m.topValue maxChain
  modify (·.pop 2)

/-- Pops a value and assigns it to a name in the value at an index. -/
def setField (i : StackIndex) (name : String) : Act ScriptError Unit := do
  let i := (← get).absolute i
  modify (·.pushText name)
  Op.insert (.fromTop 2)
  setTable i

/-- Creates a metatable and registers it under a name. If the name is taken, what it stands for
    is pushed instead. -/
def newMetatable (name : String) : Act ScriptError Bool := do
  let kind ← Op.getRegistered name
  if kind ≠ .nil then pure false
  else
    modify (·.pop 1)
    newTable
    modify (·.pushText name)
    Op.rawSetField (.fromTop 2) Metafield.name.text
    modify (·.pushAt .top)
    Op.rawSetField .registry name
    pure true

end Act

end ScriptHost
