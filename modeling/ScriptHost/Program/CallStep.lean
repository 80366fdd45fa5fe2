import ScriptHost.Program.Term
import ScriptHost.Snapshot

/-! # Call steps

Steps that call functions, marshal arguments and raise errors.
-/

namespace ScriptHost

open Act (silently)

namespace Act

/-- An operation whose failure is an error of the machine. -/
def script {α : Type} (x : Act ScriptError α) : Act StepError α := mapError .script x

end Act

/-- A step that calls functions or marshals arguments. -/
inductive CallStep where
  | call (count : Nat) (wanted : Int)
  | protectedCall (count : Nat) (wanted : Int) (handler : Option StackIndex)
  | tracedCall (count : Nat) (wanted : Int)
  | marshal (x : Marshaled)
  /-- Reads a format element by element, with values counted back from a position. -/
  | read (start : Option Nat) (x : Marshaled)
  | callMarshaled (count : Nat) (wanted : Int) (x : Marshaled) (protection : Protection)
  | invoke (callee : Act.Callee) (wanted : Int) (x : Marshaled) (protection : Protection)
  | loadLibraries (openers : List NativeCode)
  | depth
  /-- The origin of an active frame, from the innermost on. -/
  | frame (n : Nat)
  | fatalReport (message : String)
  deriving Repr, Inhabited

def CallStep.run : CallStep → Act StepError Reply
  | .call count wanted => silently (Act.script (Act.call count wanted))
  | .protectedCall count wanted handler =>
      silently (Act.script (Act.protectedCall count wanted handler))
  | .tracedCall count wanted => silently (Act.script (Act.tracedCall count wanted))
  | .marshal x => do
      let args := x.arguments (← get)
      pure (.int (← Act.mapError .format (Act.marshal x.format args)))
  | .read start x => do
      let m ← get
      let mode : Reading.Mode := { start := start.getD (m.top + 1) }
      let elements := Format.elements x.format
      pure (.reads (← Act.safely (Reading.trace mode (x.arguments m) elements)))
  | .callMarshaled count wanted x protection => do
      let args := x.arguments (← get)
      pure (.int (← Act.script (Act.callMarshaled count wanted x.format args protection)))
  | .invoke callee wanted x protection => do
      let args := x.arguments (← get)
      let report (e : ScriptError) : StepError := match protection with
        | .unguarded => .script e
        | .guarded => .thrown e.message
      let count ← Act.mapError report (Act.invocation callee wanted x.format args protection)
      pure (.int count)
  | .loadLibraries openers => do
      match ← Act.script (Act.loadLibraries openers) with
      | none => pure .nothing
      | some message => throw (.thrown message)
  | .depth => do pure (.int (← get).depth)
  | .frame n => do pure (.frame (((← get).frames[n]?).map (·.origin)))
  | .fatalReport message => do pure (.text ((← get).fatalReport message))

/-- A step that raises an error or makes its value. -/
inductive RaiseStep where
  /-- Raises an error. -/
  | error (e : ScriptError)
  /-- Raises the value on top. -/
  | top
  /-- Pushes the value of an error. -/
  | value (e : ScriptError)
  deriving Repr, Inhabited

def RaiseStep.run : RaiseStep → Act ScriptError Reply
  | .error e => throw e
  | .top => do
      let m ← get
      modify (·.pop 1)
      throw (.ofValue m.topValue m.strings)
  | .value e => do
      let v ← modifyGet (·.errorValue e)
      modify (·.push v)
      pure .nothing

end ScriptHost
