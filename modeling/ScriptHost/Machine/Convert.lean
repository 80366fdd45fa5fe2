import ScriptHost.Machine.Stack
import ScriptHost.Number.Numeral

/-! # Reading values

What a value means as a number, a text, an address or a length, and what messages call it.
-/

namespace ScriptHost

namespace Machine

variable (m : Machine)

/-- The slot of a value's metatable. -/
def metatable? : Value → Option Nat
  | .table slot => (m.heap.table slot).metatable
  | .userdata slot => (m.heap.userdata? slot).bind (·.metatable)
  | _ => none

/-- The entry of a value's metatable under a name; nil if there is none. -/
def metaEntry (v : Value) (name : StringId) : Value :=
  match m.metatable? v with
  | some mt => (m.heap.table mt).get (.string name)
  | none => .nil

def metafield (v : Value) (f : Metafield) : Value := m.metaEntry v f.id

/-- What messages call a value: the name its metatable gives, else its type. -/
def describe (v : Value) : String :=
  match m.metafield v .name with
  | .string id => Utf8.decodeLossy (m.strings.get id)
  | _ => v.kindName

def numeral? : Value → Option Numeral
  | .string id => Numeral.ofBytes? (m.strings.get id)
  | _ => none

/-- The integer that a value denotes: an integer, an integral float, or a string of either. -/
def toInt? (v : Value) : Option Int :=
  match m.heap.toInt? v with
  | some i => some i
  | none =>
      match v with
      | .float d => d.toInt64?
      | v =>
          match m.numeral? v with
          | some (.integer i) => some i
          | some (.float d) => d.toInt64?
          | none => none

def toDouble? (v : Value) : Option Double :=
  match m.heap.toDouble? v with
  | some d => some d
  | none =>
      match m.numeral? v with
      | some (.integer i) => some (Double.ofInt i)
      | some (.float d) => some d
      | none => none

def numberText? (v : Value) : Option String :=
  match m.heap.toInt? v with
  | some i => some i.repr
  | none =>
      match v with
      | .float d => some d.render
      | _ => none

/-- The address behind a userdata, or that of a light handle other than null. -/
def address? : Value → Option Address
  | .userdata slot => (m.heap.userdata? slot).map (·.address)
  | .light a => if a = 0 then none else some a
  | _ => none

/-- The block size of a full userdata. -/
def blockSize? : Value → Option Nat
  | .userdata slot => (m.heap.userdata? slot).map (·.size)
  | _ => none

/-- Equality without metamethods; integers are compared by value. -/
def rawEqual (a b : Value) : Bool :=
  match m.heap.toInt? a, m.heap.toInt? b with
  | some x, some y => x == y
  | _, _ => a.same b

/-- The length of a string, the border of a table or the size of a userdata. -/
def rawLength : Value → Nat
  | .string id => (m.strings.get id).length
  | .table slot => (m.heap.table slot).length
  | .userdata slot => ((m.heap.userdata? slot).map (·.size)).getD 0
  | _ => 0

/-- Whether what an index names has a text: a string or a number. -/
def isText (i : StackIndex) : Bool :=
  match m.kindAt i with
  | .string | .number => true
  | _ => false

/-- The string at an index. A number on the stack is replaced by its text. -/
def stringAt (i : StackIndex) : Option StringId × Machine :=
  match m.value i with
  | .string id => (some id, m)
  | v =>
      match m.numberText? v with
      | none => (none, m)
      | some text =>
          let (id, m) := m.intern (Utf8.encode text)
          match m.position? i with
          | some p => (some id, m.putAt p (.string id))
          | none => (some id, m)

/-- The bytes of the string at an index. -/
def bytesAt (i : StackIndex) : Option Bytes × Machine :=
  let (id, m) := m.stringAt i
  (id.map m.strings.get, m)

/-- The text at an index, with replacement characters where it is ill-formed. -/
def textAt (i : StackIndex) : Option String × Machine :=
  let (bytes, m) := m.bytesAt i
  (bytes.map Utf8.decodeLossy, m)

end Machine

end ScriptHost
