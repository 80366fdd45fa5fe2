import ScriptHost.Program.Term
import ScriptHost.Snapshot

/-! # Stack steps

Steps that push values, move them, and ask about them.
-/

namespace ScriptHost

open Act (silently)

/-- A step that moves values on the stack. -/
inductive StackStep where
  | literal (l : Literal)
  | copy (i : StackIndex)
  /-- Pushes a function with the top values as upvalues. -/
  | function (code : NativeCode) (upvalues : Nat) (origin : Origin)
  | table
  | userdata (size : Nat)
  | setTop (n : Nat)
  | pop (n : Nat)
  | insert (i : StackIndex)
  | remove (i : StackIndex)
  | replace (i : StackIndex)
  | top
  | absolute (i : StackIndex)
  | isValid (i : StackIndex)
  | hasRoom (n : Nat)
  deriving Repr, Inhabited

def StackStep.run : StackStep → Act ScriptError Reply
  | .literal l => silently l.push
  | .copy i => silently (modify (·.pushAt i))
  | .function code upvalues origin => silently (Act.pushFunction (.code code) upvalues origin)
  | .table => silently Act.newTable
  | .userdata size => silently do let _ ← Act.newUserdata size
  | .setTop n => silently (modify (·.setTop n))
  | .pop n => silently (modify (·.pop n))
  | .insert i => silently (Op.insert i)
  | .remove i => silently (Op.remove i)
  | .replace i => silently (Op.replace i)
  | .top => do pure (.int (← get).top)
  | .absolute i => do pure (.index ((← get).absolute i))
  | .isValid i => do pure (.bool ((← get).isValid i))
  | .hasRoom n => do pure (.bool ((← get).hasRoom n))

/-- A step that asks about values. -/
inductive QueryStep where
  | kind (i : StackIndex)
  | inspect (i : StackIndex)
  /-- The text at an index. A number is replaced by its text. -/
  | text (i : StackIndex)
  | bytes (i : StackIndex)
  /-- The bytes up to the first NUL. -/
  | terminated (i : StackIndex)
  | rawEqual (i j : StackIndex)
  | rawLength (i : StackIndex)
  | isCallable (i : StackIndex)
  | dump (i : StackIndex) (depth : Nat)
  deriving Repr, Inhabited

def QueryStep.run : QueryStep → Act ScriptError Reply
  | .kind i => do
      let m ← get
      pure (.typed (m.kindAt i) (m.describe (m.value i)))
  | .inspect i => do pure (.inspection ((← get).inspect i))
  | .text i => do
      let text ← modifyGet (·.textAt i)
      pure (.optionalBytes (text.map Utf8.encode))
  | .bytes i => do pure (.optionalBytes (← modifyGet (·.bytesAt i)))
  | .terminated i => do
      let bytes ← modifyGet (·.bytesAt i)
      pure (.optionalBytes (bytes.map Bytes.untilNul))
  | .rawEqual i j => do
      let m ← get
      pure (.bool (m.rawEqual (m.value i) (m.value j)))
  | .rawLength i => do
      let m ← get
      pure (.int (m.rawLength (m.value i)))
  | .isCallable i => do pure (.bool (← modifyGet (·.isCallable i)))
  | .dump i depth => do
      let m ← get
      pure (.dump (m.dump depth (m.value i)))

end ScriptHost
