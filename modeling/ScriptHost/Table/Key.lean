import ScriptHost.Value

/-! # Table keys

A value is normalized before it is used as a key, so that an integral float and the integer of the
same value name one entry. Nil and NaN are no keys.
-/

namespace ScriptHost

/-- A normalized table key. -/
inductive Key where
  | integer (i : Int)
  | string (id : StringId)
  /-- A float that denotes no 64-bit integer. -/
  | float (d : Double)
  /-- A heap object, known by its identity. -/
  | object (ref : Ref)
  /-- A foreign word, known by its bits. -/
  | foreign (w : Word)
  | boolean (b : Bool)
  | light (address : Address)
  deriving DecidableEq, Repr, Inhabited

namespace Key

/-- The key that a value names. A boxed integer names its box here; what it holds is known to the
    heap only. -/
def ofValue? : Value → Option Key
  | .nil => none
  | .int i => some (.integer i)
  | .float d =>
      if d.isNaN then none
      else match d.toInt64? with
        | some i => some (.integer i)
        | none => some (.float d)
  | .bool b => some (.boolean b)
  | .string id => some (.string id)
  | .light a => some (.light a)
  | .object r => some (.object r)
  | .foreign w => some (.foreign w)

/-- The value that names a key, or the integer that has to be boxed for it. -/
def toValue : Key → Except Int Value
  | .integer i => if Value.fitsInline i then .ok (.int i) else .error i
  | .string id => .ok (.string id)
  | .float d => .ok (.ofDouble d)
  | .object r => .ok (.object r)
  | .foreign w => .ok (.foreign w)
  | .boolean b => .ok (.bool b)
  | .light a => .ok (.light a)

end Key

/-- Why a value is no key. -/
inductive KeyError where
  | isNil
  | isNaN
  deriving DecidableEq, Repr

def KeyError.message : KeyError → String
  | .isNil => "table index is nil"
  | .isNaN => "table index is NaN"

end ScriptHost
