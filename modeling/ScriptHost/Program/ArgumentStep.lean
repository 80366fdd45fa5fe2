import ScriptHost.Machine.Check
import ScriptHost.Snapshot

/-! # Argument steps

Steps of a native function that take its arguments: checks, conversions to native types, and a few
computations that programs need.
-/

namespace ScriptHost

/-- The native type of an argument. Integers are cut to their width without a complaint. -/
inductive ArgumentType where
  | signed (width : Nat)
  | unsigned (width : Nat)
  | single
  | double
  | boolean
  | text
  /-- A text up to its first NUL. -/
  | terminated
  | pointer
  deriving DecidableEq, Repr, Inhabited

/-- Takes an argument as a native type. -/
def ArgumentType.take (t : ArgumentType) (n : Nat) : Op ScriptError Reply := do
  match t with
  | .signed width => pure (.int (Int.bmod (← Op.checkInt n) (2 ^ (8 * width))))
  | .unsigned width => pure (.int ((← Op.checkInt n) % 2 ^ (8 * width)))
  | .single => pure (.single (← Op.checkNumber n).toSingle)
  | .double => pure (.float (← Op.checkNumber n))
  | .boolean => pure (.bool (← Op.checkBool n))
  | .text => pure (.text (← Op.checkText n))
  | .terminated =>
      let id ← Op.checkString n
      pure (.bytes (Bytes.untilNul ((← get).strings.get id)))
  | .pointer =>
      let a ← Op.checkAddress n
      pure (.place ((← get).place a))

/-- A part of a text that a program puts together. -/
inductive TextPart where
  | literal (s : String)
  /-- The text at an index, empty if there is none. -/
  | slot (i : StackIndex)
  /-- The number of active frames. -/
  | depth
  deriving DecidableEq, Repr, Inhabited

def TextPart.render : TextPart → Op ScriptError String
  | .literal s => pure s
  | .slot i => do pure ((← modifyGet (·.textAt i)).getD "")
  | .depth => do pure (← get).depth.repr

/-- A step that takes arguments. -/
inductive ArgumentStep where
  | any (n : Nat)
  | integer (n : Nat)
  | number (n : Nat)
  | boolean (n : Nat)
  | text (n : Nat)
  | terminated (n : Nat)
  | kind (n : Nat) (k : ValueKind)
  /-- The block of an argument that has a registered metatable. -/
  | testUserdata (n : Nat) (name : String)
  | userdata (n : Nat) (name : String)
  | native (t : ArgumentType) (n : Nat)
  /-- Takes the top value as a native type and pops it. -/
  | popNative (t : ArgumentType)
  /-- Pushes the sum of all arguments. -/
  | sum
  /-- Adds a number to the one on top. -/
  | add (n : Int)
  /-- Pushes a text that is put together. -/
  | concat (parts : List TextPart)
  deriving Repr, Inhabited

def ArgumentStep.run : ArgumentStep → Op ScriptError Reply
  | .any n => do
      Op.checkAny n
      pure .nothing
  | .integer n => do pure (.int (← Op.checkInt n))
  | .number n => do pure (.float (← Op.checkNumber n))
  | .boolean n => do pure (.bool (← Op.checkBool n))
  | .text n => ArgumentType.text.take n
  | .terminated n => ArgumentType.terminated.take n
  | .kind n k => do
      Op.checkKind n k
      pure .nothing
  | .testUserdata n name => do
      let m ← get
      pure (.optionalPlace ((m.testUserdata? n name).map m.place))
  | .userdata n name => do
      let a ← Op.checkUserdata n name
      pure (.place ((← get).place a))
  | .native t n => t.take n
  | .popNative t => do
      let reply ← t.take (← get).top
      modify (·.pop 1)
      pure reply
  | .sum => do
      let count := (← get).top
      let total ← (List.range count).foldlM (fun total i => do
        pure (wrapInt64 (total + (← Op.checkInt (i + 1))))) 0
      modify (·.pushInt total)
      pure .nothing
  | .add n => do
      let i ← Op.checkInt (← get).top
      modify fun m => (m.pop 1).pushInt (wrapInt64 (i + n))
      pure .nothing
  | .concat parts => do
      let texts ← parts.mapM TextPart.render
      modify (·.pushText (String.join texts))
      pure .nothing

end ScriptHost
