import ScriptHost.Handle

/-! # Terms of programs

The operands that a program writes down: values to push, native addresses, and arguments to
marshal. Addresses are given by the name of a block and are looked up when the step runs.
-/

namespace ScriptHost

/-- A native address as a program writes it. -/
inductive AddressTerm where
  | bare (a : Address)
  /-- An offset from the start of a named block. -/
  | inBlock (name : String) (offset : Nat)
  deriving DecidableEq, Repr, Inhabited

/-- The address that a term denotes; null for a name that is unknown. -/
def AddressTerm.resolve (m : Machine) : AddressTerm → Address
  | .bare a => a
  | .inBlock name offset =>
      match m.heap.memory.named? name with
      | some b => b.base + offset
      | none => 0

/-- A value that a program pushes. -/
inductive Literal where
  | nil
  | bool (b : Bool)
  | int (i : Int)
  | float (d : Double)
  | bytes (b : Bytes)
  | light (a : AddressTerm)
  deriving DecidableEq, Repr, Inhabited

def Literal.push : Literal → Op ScriptError Unit
  | .nil => modify (·.push .nil)
  | .bool b => modify (·.push (.bool b))
  | .int i => modify (·.pushInt i)
  | .float d => modify (·.push (.ofDouble d))
  | .bytes b => modify (·.pushBytes b)
  | .light a => do Op.pushLight (a.resolve (← get))

/-- An argument to marshal. -/
inductive Operand where
  | plain (a : Argument)
  | pointer (a : AddressTerm)
  deriving DecidableEq, Repr, Inhabited

def Operand.resolve (m : Machine) : Operand → Argument
  | .plain a => a
  | .pointer a => .pointer (a.resolve m)

/-- A format with its operands. -/
structure Marshaled where
  format : List Directive
  operands : List Operand
  deriving DecidableEq, Repr, Inhabited

def Marshaled.arguments (x : Marshaled) (m : Machine) : List Argument :=
  x.operands.map (·.resolve m)

/-- The properties of a native type, with member tags given by number. -/
structure PeerTerm where
  members : List (String × Nat × UInt8)
  getters : List (String × NativeCode) := []
  setters : List (String × NativeCode) := []
  addressing : Addressing
  deriving DecidableEq, Repr, Inhabited

/-- The peer that a term describes, unless its members are refused. -/
def PeerTerm.resolve (p : PeerTerm) : Except MemberError Peer := do
  let members ← MemberTable.ofNumbers p.members
  pure { members, getters := p.getters, setters := p.setters, addressing := p.addressing }

/-- A step without an answer. -/
def Act.silently {ε : Type} (x : Act ε Unit) : Act ε Reply := do
  x
  pure .nothing

end ScriptHost
