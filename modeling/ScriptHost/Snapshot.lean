import ScriptHost.Machine.Convert

/-! # Snapshots

How the values of a machine are shown to the host. A shallow view tells how large a table or a
userdata is, a dump tells its contents too. Objects are numbered in the order in which a dump meets
them, so that one that is met again is shown by its number.
-/

namespace ScriptHost

namespace Machine

variable (m : Machine)

/-- An address by the named block or the userdata that it lies in. -/
def place (a : Address) : Place :=
  match m.heap.memory.blockAt? a with
  | some b =>
      match b.owner with
      | .host name => .inBlock name (a - b.base)
      | .userdata => .inUserdata (a - b.base)
      | .anonymous | .literal _ => .bare a
  | none => .bare a

/-- A value without its contents. -/
def shallow (v : Value) : Shallow :=
  match v with
  | .nil => .nil
  | .bool b => .bool b
  | .int i => .int i
  | .float d => .float d
  | .string id => .text (m.strings.get id)
  | .light a => .light (m.place a)
  | .table _ => .table (m.rawLength v)
  | .function slot => .function ((m.heap.function? slot).elim .host (·.body.origin))
  | .userdata _ => .userdata (m.rawLength v)
  | .boxed _ => .int ((m.heap.toInt? v).getD 0)
  | .foreign _ => .userdata 0

/-- The values of the running frame, bottom to top. -/
def frameValues : List Value := (m.stack.extract m.base m.stack.size).toList

def isNumeric (v : Value) : Bool := (m.toDouble? v).isSome

/-- All that can be asked about the value at an index. -/
def inspect (i : StackIndex) : Inspection :=
  let v := m.value i
  let kind := m.kindAt i
  { kind
    typeName := m.describe v
    isNone := kind = .absent
    isNil := v.isNil
    isNoneOrNil := v.isNil
    isBoolean := v.kind = .boolean
    isNumber := m.isNumeric v
    isString := m.isText i
    isTable := v.kind = .table
    isFunction := v.kind = .function
    isUserdata := v.kind = .userdata || v.kind = .light
    isLight := v.kind = .light
    isTrue := v.isTruthy
    integer := m.toInt? v
    number := m.toDouble? v
    rawLength := m.rawLength v
    pointer := (m.address? v).map m.place
    size := m.blockSize? v }

def summary : String :=
  "State \x7b top: " ++ m.top.repr ++ ", depth: " ++ m.depth.repr
    ++ ", objects: " ++ m.heap.live.repr
    ++ ", natives: " ++ m.heap.functions.live.repr ++ " \x7d"

end Machine

namespace Dump

/-- Building a dump with the objects met so far, the latest first. -/
abbrev Builder := StateM (List Ref)

/-- The number of an object that was met before. -/
def seen? (met : List Ref) (r : Ref) : Option Nat :=
  if met.contains r then some ((met.dropWhile (· ≠ r)).length - 1) else none

/-- A value with its contents down to a depth, below which values are shallow. -/
def ofValue (m : Machine) : Nat → Value → Builder Dump
  | 0, v => pure (.leaf (m.shallow v))
  | depth + 1, v => do
      match v with
      | .object r =>
          if r.kind = .table ∨ r.kind = .userdata then
            let met ← get
            match seen? met r with
            | some id => pure (.seen id)
            | none =>
                set (r :: met)
                let id := met.length
                if r.kind = .table then
                  let t := m.heap.table r.slot
                  let entries ← t.toList.mapM fun (k, v) => do
                    let k ← match k.toValue with
                      | .ok k => ofValue m depth k
                      | .error i => pure (.leaf (.int i))
                    let v ← ofValue m depth v
                    pure (k, v)
                  let metatable ← t.metatable.mapM fun mt => ofValue m depth (.table mt)
                  pure (.table id t.length entries metatable)
                else
                  let u := (m.heap.userdata? r.slot).getD { serial := 0, address := 0, size := 0 }
                  let userValue ←
                    if u.userValue.isNil then pure none
                    else some <$> ofValue m depth u.userValue
                  let metatable ← u.metatable.mapM fun mt => ofValue m depth (.table mt)
                  pure (.userdata id u.size userValue metatable)
          else pure (.leaf (m.shallow v))
      | v => pure (.leaf (m.shallow v))

end Dump

/-- A value with its contents down to a depth. -/
def Machine.dump (m : Machine) (depth : Nat) (v : Value) : Dump :=
  (StateT.run (Dump.ofValue m depth v) []).1

end ScriptHost
