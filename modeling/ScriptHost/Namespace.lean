import ScriptHost.Machine.Index

/-! # Namespaces

Globals by dotted names: each segment names an entry of the table that the segments before it lead
to. Reading and assigning go through metatables, creating namespaces does not.
-/

namespace ScriptHost

namespace Path

/-- Cuts characters at every dot. -/
def split : List Char → List (List Char)
  | [] => [[]]
  | c :: rest =>
      match split rest with
      | [] => [[c]]
      | segment :: segments =>
          if c = '.' then [] :: segment :: segments else (c :: segment) :: segments

/-- The segments of a dotted name; there is always at least one. -/
def segments (name : String) : List String := (split name.toList).map String.ofList

/-- The part before the last dot and the part after it, if there is a dot. -/
def splitLast (name : String) : Option (String × String) :=
  let cs := name.toList.reverse
  match cs.dropWhile (· ≠ '.') with
  | [] => none
  | _ :: before =>
      some (String.ofList before.reverse, String.ofList (cs.takeWhile (· ≠ '.')).reverse)

end Path

namespace Act

/-- Replaces the value on top by its entries along some segments. -/
def followPath : List String → Act ScriptError Unit
  | [] => pure ()
  | segment :: rest => do
      let _ ← getField .top segment
      Op.remove (.fromTop 2)
      followPath rest

/-- Pushes the global of a dotted name. On failure the stack is as it was. -/
def getGlobal (name : String) : Act ScriptError ValueKind := do
  let top := (← get).top
  modify (·.pushAt .environment)
  match ← attempt (followPath (Path.segments name)) with
  | .ok () => pure ((← get).kindAt .top)
  | .error e =>
      modify (·.setTop top)
      throw e

/-- Pops a value and assigns it to the global of a dotted name. -/
def setGlobal (name : String) : Act ScriptError Unit := do
  match Path.splitLast name with
  | none => setField .environment name
  | some (path, field) =>
      let top := (← get).top
      let assign : Act ScriptError Unit := do
        let _ ← getGlobal path
        Op.insert (.fromTop 2)
        setField (.fromTop 2) field
      match ← attempt assign with
      | .ok () => modify (·.pop 1)
      | .error e =>
          modify (·.setTop (top - 1))
          throw e

/-- Pushes the cached value of a key, if there is one. -/
def cacheGet {ε : Type} (key : CacheKey NativeCode) : Act ε Bool := do
  let m ← get
  match m.cache.get? key with
  | some v =>
      modify (·.push v)
      pure true
  | none => pure false

def cacheSet {ε : Type} (key : CacheKey NativeCode) : Act ε Unit :=
  modify fun m => { m with cache := m.cache.insert key m.topValue }

/-- Pushes a global that is looked up the first time only. -/
def cachedGlobal (name : String) (key : CacheKey NativeCode) : Act ScriptError Unit := do
  if !(← cacheGet key) then
    let _ ← getGlobal name
    cacheSet key

/-- Pushes the function object of a native function, which is made the first time only. -/
def cachedNative {ε : Type} (code : NativeCode) : Act ε Unit := do
  if !(← cacheGet (.native code)) then
    pushNative code
    cacheSet (.native code)

/-- Replaces the table on top by the tables along some segments, which are made where they are
    missing. `conflict` is the fault of a value that is no table. -/
def enterTables (conflict : Fault) : List String → Act ScriptError Unit
  | [] => pure ()
  | segment :: rest => do
      match ← Op.rawGetField .top segment with
      | .table => pure ()
      | .nil =>
          modify (·.pop 1)
          newTable
          modify (·.pushAt .top)
          Op.rawSetField (.fromTop 3) segment
      | _ => fail conflict
      Op.remove (.fromTop 2)
      enterTables conflict rest

/-- Pushes the global table of a dotted name, making every table on the way that is missing. On
    failure the stack is as it was. -/
def findTable (name : String) : Act ScriptError Unit := do
  let top := (← get).top
  modify (·.pushAt .environment)
  match ← attempt (enterTables (.moduleConflict name) (Path.segments name)) with
  | .ok () => pure ()
  | .error e =>
      modify (·.setTop top)
      throw e

/-- Sets named functions as fields of the table on top. -/
def setFunctions : List (String × NativeCode) → Act ScriptError Unit
  | [] => pure ()
  | (field, code) :: rest => do
      pushNative code (.named field)
      setField (.fromTop 2) field
      setFunctions rest

/-- Sets named functions as fields of a global table, which is made if it is missing, or of the
    table on top if no name is given. -/
def register (name : Option String) (functions : List (String × NativeCode)) :
    Act ScriptError Unit := do
  match name with
  | some name =>
      findTable name
      setFunctions functions
      modify (·.pop 1)
  | none => setFunctions functions

end Act

end ScriptHost
