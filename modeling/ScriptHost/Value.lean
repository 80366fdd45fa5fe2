import ScriptHost.Word

/-! # Script values

What a stack slot, a table entry or an upvalue holds. Heap objects are named by their arena and
slot, strings by their number in the pool. Integers outside the inline range live in a box on the
heap.
-/

namespace ScriptHost

/-- The arenas of the heap. -/
inductive ObjectKind where
  | table
  | function
  | userdata
  /-- An integer too large to be stored inline. -/
  | boxed
  deriving DecidableEq, Repr, Inhabited, Hashable

/-- A heap object: its arena and its slot there. -/
structure Ref where
  kind : ObjectKind
  slot : Nat
  deriving DecidableEq, Repr, Inhabited, Hashable

/-- The sub-tag of an arena's words. -/
def ObjectKind.subTag : ObjectKind → Nat
  | .table => Word.tableTag
  | .function => Word.functionTag
  | .userdata => Word.userdataTag
  | .boxed => Word.boxedTag

/-- The arena of a sub-tag. -/
def ObjectKind.ofSubTag? (subTag : Nat) : Option ObjectKind :=
  [table, function, userdata, boxed].find? (·.subTag == subTag)

/-- The object that a word leads to; bits beside arena and slot do not matter. -/
def Ref.ofWord? (w : Word) : Option Ref :=
  (w.subTag?.bind ObjectKind.ofSubTag?).map fun kind => ⟨kind, w.slot⟩

/-- The number of an interned string. -/
abbrev StringId := Nat

abbrev Address := Nat

/-- A script value. -/
inductive Value where
  | nil
  | bool (b : Bool)
  | float (d : Double)
  /-- An integer in the inline range. -/
  | int (i : Int)
  | string (id : StringId)
  /-- A light handle: a bare address that the collector does not follow. -/
  | light (address : Address)
  | object (ref : Ref)
  /-- A heap word that the library never makes: one with bits set that carry nothing, or with an
      unused sub-tag. It leads to the object that its arena and slot name, if any, but is a value
      and a key of its own. -/
  | foreign (w : Word)
  deriving DecidableEq, Repr, Inhabited

/-- The type of a stack slot as scripts see it. -/
inductive ValueKind where
  /-- An index past the top of the stack. -/
  | absent
  | nil
  | boolean
  | light
  | number
  | string
  | table
  | function
  | userdata
  deriving DecidableEq, Repr, Inhabited

/-- The name of a type in messages; light handles count as userdata. -/
def ValueKind.name : ValueKind → String
  | .absent => "no value"
  | .nil => "nil"
  | .boolean => "boolean"
  | .light | .userdata => "userdata"
  | .number => "number"
  | .string => "string"
  | .table => "table"
  | .function => "function"

/-- The type of the values that refer to an arena. -/
def ObjectKind.valueKind : ObjectKind → ValueKind
  | .table => .table
  | .function => .function
  | .userdata => .userdata
  | .boxed => .number

namespace Value

@[match_pattern] abbrev table (slot : Nat) : Value := .object ⟨.table, slot⟩
@[match_pattern] abbrev function (slot : Nat) : Value := .object ⟨.function, slot⟩
@[match_pattern] abbrev userdata (slot : Nat) : Value := .object ⟨.userdata, slot⟩
@[match_pattern] abbrev boxed (slot : Nat) : Value := .object ⟨.boxed, slot⟩

def inlineMin : Int := -2 ^ 46

def inlineMax : Int := 2 ^ 46 - 1

def fitsInline (i : Int) : Bool := inlineMin ≤ i && i ≤ inlineMax

/-- Light handles hold addresses below this bound. -/
def lightBound : Address := 2 ^ 47

/-- A light handle for an address that fits one. -/
def light? (address : Address) : Option Value :=
  if address < lightBound then some (.light address) else none

/-- A float value; every NaN becomes the canonical one. -/
def ofDouble (d : Double) : Value := .float d.canonical

/-- The heap object that a value refers to. -/
def ref? : Value → Option Ref
  | .object r => some r
  | .foreign w => Ref.ofWord? w
  | _ => none

def isNil : Value → Bool
  | .nil => true
  | _ => false

/-- Nil and false. -/
def isFalsy : Value → Bool
  | .nil => true
  | .bool b => !b
  | _ => false

def isTruthy (v : Value) : Bool := !v.isFalsy

/-- The type of a value; foreign words that lead nowhere count as userdata. -/
def kind : Value → ValueKind
  | .nil => .nil
  | .bool _ => .boolean
  | .float _ | .int _ => .number
  | .string _ => .string
  | .light _ => .light
  | .object r => r.kind.valueKind
  | .foreign w => ((Ref.ofWord? w).map (·.kind.valueKind)).getD .userdata

def kindName (v : Value) : String := v.kind.name

/-- Equality of values without the heap: floats by number, boxed integers by box, all else by
    identity. -/
def same : Value → Value → Bool
  | .float a, .float b => a.sameNumber b
  | a, b => a == b

end Value

/-- An integer reduced to the signed 64-bit range. -/
def wrapInt64 (i : Int) : Int := Int.bmod i (2 ^ 64)

end ScriptHost
