import ScriptHost.Machine.Convert

/-! # Checked arguments

Reading the arguments of a native function, with a message that names the argument when it does not
fit.
-/

namespace ScriptHost

namespace Machine

/-- What is wrong with an argument that should have had another type. -/
def argumentFault (m : Machine) (n : Nat) (expected : String) : Fault :=
  let i := StackIndex.argument n
  let got := if m.kindAt i = .absent then ValueKind.absent.name else m.describe (m.value i)
  .argumentType n expected got

/-- The block of the userdata at an argument if its metatable is registered under a name. -/
def testUserdata? (m : Machine) (n : Nat) (name : String) : Option Address :=
  match m.value (.argument n) with
  | .userdata slot =>
      let registered := (m.strings.find? (Utf8.encode name)).map fun id =>
        (m.heap.table m.registry).get (.string id)
      match m.heap.userdata? slot, registered with
      | some u, some (.table mt) => if u.metatable = some mt then some u.address else none
      | _, _ => none
  | _ => none

end Machine

namespace Op

/-- Fails because an argument has the wrong type. -/
def failArgument {α : Type} (n : Nat) (expected : String) : Op ScriptError α := do
  fail ((← get).argumentFault n expected)

def checkAny (n : Nat) : Op ScriptError Unit := do
  if (← get).kindAt (.argument n) = .absent then fail (.argumentAbsent n)

def checkInt (n : Nat) : Op ScriptError Int := do
  let m ← get
  let v := m.value (.argument n)
  match m.toInt? v with
  | some i => pure i
  | none =>
      if (m.toDouble? v).isSome then fail (.argumentNotIntegral n)
      else failArgument n "number"

def checkNumber (n : Nat) : Op ScriptError Double := do
  let m ← get
  match m.toDouble? (m.value (.argument n)) with
  | some d => pure d
  | none => failArgument n "number"

def checkBool (n : Nat) : Op ScriptError Bool := do
  match (← get).value (.argument n) with
  | .bool b => pure b
  | _ => failArgument n "boolean"

/-- The interned string at an argument; a number is replaced by its text. -/
def checkString (n : Nat) : Op ScriptError StringId := do
  match ← modifyGet (·.stringAt (.argument n)) with
  | some id => pure id
  | none => failArgument n "string"

def checkText (n : Nat) : Op ScriptError String := do
  let id ← checkString n
  pure (Utf8.decodeLossy ((← get).strings.get id))

def checkKind (n : Nat) (kind : ValueKind) : Op ScriptError Unit := do
  if (← get).kindAt (.argument n) ≠ kind then failArgument n kind.name

def checkUserdata (n : Nat) (name : String) : Op ScriptError Address := do
  match (← get).testUserdata? n name with
  | some a => pure a
  | none => failArgument n name

/-- The address at an argument that is a userdata or a light handle; null for a null handle. -/
def checkAddress (n : Nat) : Op ScriptError Address := do
  let m ← get
  match m.kindAt (.fromBottom n) with
  | .userdata | .light => pure ((m.address? (m.value (.fromBottom n))).getD 0)
  | _ => fail (.argumentNotUserdata n)

end Op

end ScriptHost
