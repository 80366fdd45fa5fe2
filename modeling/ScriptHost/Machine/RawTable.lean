import ScriptHost.Machine.Convert

/-! # Raw table access

Reading and writing table entries without metamethods.
-/

namespace ScriptHost

namespace Machine

variable (m : Machine)

/-- The entry of a table under a value; nil and NaN read as nil. -/
def rawGet (slot : Nat) (key : Value) : Value :=
  match m.heap.key? key with
  | some k => (m.heap.table slot).get k
  | none => .nil

def setEntry (slot : Nat) (key : Key) (v : Value) : Machine :=
  { m with heap := m.heap.modifyTable slot fun t => t.set key v }

/-- A key as a value, boxed if it has to be. -/
def keyValue (key : Key) : Value × Machine :=
  match key.toValue with
  | .ok v => (v, m)
  | .error i => m.ofInt i

/-- Pushes the metatable of the value at an index, if it has one. -/
def getMetatable (i : StackIndex) : Bool × Machine :=
  match m.metatable? (m.value i) with
  | some mt => (true, m.push (.table mt))
  | none => (false, m)

/-- Pushes a metatable entry of the value at an index, if it is not nil. -/
def getMetafield (i : StackIndex) (name : String) : Option ValueKind × Machine :=
  match m.strings.find? (Utf8.encode name) with
  | none => (none, m)
  | some id =>
      let v := m.metaEntry (m.value i) id
      if v.isNil then (none, m) else (some v.kind, m.push v)

/-- Whether the value at an index can be called: a function, or a value whose metatable has a `__call`
    field. The field is looked at on the stack and taken off again. -/
def isCallable (i : StackIndex) : Bool × Machine :=
  let i := m.absolute i
  if (m.value i).kind = .function then (true, m)
  else
    match m.getMetafield i Metafield.call.text with
    | (some _, m) => (true, m.pop 1)
    | (none, m) => (false, m)

/-- Pushes the user value of the userdata at an index; nil for anything else. -/
def getUserValue (i : StackIndex) : ValueKind × Machine :=
  let v := match m.value i with
    | .userdata slot => ((m.heap.userdata? slot).map (·.userValue)).getD .nil
    | _ => .nil
  (v.kind, m.push v)

end Machine

namespace Op

def tableAt (i : StackIndex) : Op ScriptError Nat := do
  let m ← get
  match m.value i with
  | .table slot => pure slot
  | v => fail (.tableExpected (m.describe v))

/-- Stores an entry of a table under a value. -/
def rawStore (slot : Nat) (key v : Value) : Op ScriptError Unit := do
  match key, (← get).heap.key? key with
  | .nil, _ => fail (.key .isNil)
  | _, some k => modify (·.setEntry slot k v)
  | _, none => fail (.key .isNaN)

/-- Replaces the key on top by its entry of the table at an index. -/
def rawGet (i : StackIndex) : Op ScriptError ValueKind := do
  let slot ← tableAt ((← get).absolute i)
  let m ← get
  let v := m.rawGet slot m.topValue
  modify (·.pop 1)
  modify (·.push v)
  pure v.kind

/-- Stores the top value under the key below it and pops both. -/
def rawSet (i : StackIndex) : Op ScriptError Unit := do
  let slot ← tableAt ((← get).absolute i)
  let m ← get
  rawStore slot (m.value (.fromTop 2)) m.topValue
  modify (·.pop 2)

def rawGetInt (i : StackIndex) (n : Int) : Op ScriptError ValueKind := do
  let slot ← tableAt i
  let v := ((← get).heap.table slot).getInt n
  modify (·.push v)
  pure v.kind

/-- Pops a value and stores it under an integer key. -/
def rawSetInt (i : StackIndex) (n : Int) : Op ScriptError Unit := do
  let slot ← tableAt ((← get).absolute i)
  modify fun m => m.setEntry slot (.integer n) m.topValue
  modify (·.pop 1)

def rawGetField (i : StackIndex) (name : String) : Op ScriptError ValueKind := do
  let slot ← tableAt i
  let id ← modifyGet (·.intern (Utf8.encode name))
  let v := ((← get).heap.table slot).get (.string id)
  modify (·.push v)
  pure v.kind

/-- Pops a value and stores it under a name. -/
def rawSetField (i : StackIndex) (name : String) : Op ScriptError Unit := do
  let slot ← tableAt ((← get).absolute i)
  let id ← modifyGet (·.intern (Utf8.encode name))
  modify fun m => m.setEntry slot (.string id) m.topValue
  modify (·.pop 1)

/-- Pops a key and pushes the entry after it in traversal order, key below value. At the end only
    the key is popped. -/
def next (i : StackIndex) : Op ScriptError Bool := do
  let slot ← tableAt ((← get).absolute i)
  let key := (← get).topValue
  modify (·.pop 1)
  let m ← get
  let start := if key.isNil then none else m.heap.key? key
  match (m.heap.table slot).next start with
  | some (some (k, v)) =>
      let k ← modifyGet (·.keyValue k)
      modify (·.push k)
      modify (·.push v)
      pure true
  | some none => pure false
  | none => fail .invalidTraversalKey

/-- Sets the metatable of the value at an index to the table on top, or to none if that is nil,
    and pops it. -/
def setMetatable (i : StackIndex) : Op ScriptError Unit := do
  let m ← get
  let metatable ← match m.topValue with
    | .nil => pure none
    | .table slot => pure (some slot)
    | _ => fail .metatableNotTable
  match m.value (m.absolute i) with
  | .table slot =>
      modify fun m => { m with heap := m.heap.modifyTable slot fun t => { t with metatable } }
  | .userdata slot =>
      modify fun m => { m with heap := m.heap.modifyUserdata slot fun u => { u with metatable } }
  | v => fail (.noMetatable v.kind)
  modify (·.pop 1)

/-- Pushes what the registry holds under a name. -/
def getRegistered (name : String) : Op ScriptError ValueKind := rawGetField .registry name

/-- Pops a value and stores it as the user value of the userdata at an index. -/
def setUserValue (i : StackIndex) : Op ScriptError Unit := do
  let m ← get
  match m.value (m.absolute i) with
  | .userdata slot =>
      let userValue := m.topValue
      modify fun m => { m with heap := m.heap.modifyUserdata slot fun u => { u with userValue } }
      modify (·.pop 1)
  | _ => fail .fullUserdataExpected

end Op

end ScriptHost
