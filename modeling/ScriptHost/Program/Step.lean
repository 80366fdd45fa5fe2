import ScriptHost.Program.ArgumentStep
import ScriptHost.Program.ClassStep
import ScriptHost.Program.MemoryStep
import ScriptHost.Program.StackStep
import ScriptHost.Program.TableStep

/-! # Steps

What a program is made of. The steps of a list are done one by one and leave their answers in the
journal; the first that fails ends the list.
-/

namespace ScriptHost

/-- A step that works on the collector or on the machine as a whole. -/
inductive MachineStep where
  | collect
  /-- The number of objects on the heap. -/
  | live
  | summary
  | limits
  | close
  deriving Repr, Inhabited

def MachineStep.run : MachineStep → Act ScriptError Reply
  | .collect => do pure (.int (← Act.collect))
  | .live => do pure (.int (← get).heap.live)
  | .summary => do pure (.text (← get).summary)
  | .limits => do pure (.text (← get).limits.describe)
  | .close => Act.silently Act.close

/-- A step that holds no other steps. -/
inductive BasicStep where
  | stack (s : StackStep)
  | query (s : QueryStep)
  | table (s : TableStep)
  | metatable (s : MetaStep)
  | name (s : NameStep)
  | call (s : CallStep)
  | raise (s : RaiseStep)
  | argument (s : ArgumentStep)
  | classes (s : ClassStep)
  | memory (s : MemoryStep)
  | handle (s : HandleStep)
  | machine (s : MachineStep)
  /-- Writes a note into the journal. -/
  | note (message : String)
  deriving Repr, Inhabited

/-- Does a step that holds no other steps. -/
def BasicStep.run : BasicStep → Act StepError Reply
  | .stack s => Act.script s.run
  | .query s => Act.script s.run
  | .table s => Act.script s.run
  | .metatable s => Act.script s.run
  | .name s => Act.script s.run
  | .call s => s.run
  | .raise s => Act.script s.run
  | .argument s => Act.script s.run
  | .classes s => s.run
  | .memory s => Act.script s.run
  | .handle s => Act.script s.run
  | .machine s => Act.script s.run
  | .note message => do
      modify fun m => { m with journal := .note message :: m.journal }
      pure .nothing

/-- A step of a program. -/
inductive Step where
  | basic (s : BasicStep)
  /-- Does steps up to the first that fails, and answers its error. -/
  | attempt (body : List Step)
  /-- Does steps so many times. -/
  | loop (n : Nat) (body : List Step)
  /-- Does some steps if the value on top is true, and others if it is not. -/
  | ifTop (body otherwise : List Step)
  /-- Does some steps if two values are equal, and others if they are not. -/
  | ifEqual (i j : StackIndex) (body otherwise : List Step)
  /-- Ends the function with so many results, or with all values of its frame. -/
  | finish (results : Option Nat)
  deriving Repr, Inhabited

/-- How steps go on after one of them. -/
inductive Flow where
  | next (r : Reply)
  /-- The function ends with so many results. -/
  | finish (results : Nat)
  deriving Inhabited

namespace Act

/-- Writes an answer into the journal unless it says nothing. -/
def journal (r : Reply) : Act StepError Unit :=
  if r.isNothing then pure ()
  else modify fun m => { m with journal := .reply r :: m.journal }

def failure {ε : Type} (e : StepError) : Act ε Reply := do
  let m ← get
  pure <| .failure e <| match e with
    | .script (.value v) => some (m.shallow v)
    | _ => none

def times (x : Act StepError Unit) : Nat → Act StepError Unit
  | 0 => pure ()
  | n + 1 => do
      x
      times x n

end Act

namespace Step

mutual

def run : Step → Act StepError Flow
  | .basic s => do pure (.next (← s.run))
  | .attempt body => do
      match ← Act.attempt (runAll body) with
      | .ok _ => pure (.next .nothing)
      | .error e => pure (.next (← Act.failure e))
  | .loop n body => do
      Act.times (do let _ ← runAll body) n
      pure (.next .nothing)
  | .ifTop body otherwise => do
      let chosen := if (← get).topValue.isTruthy then runAll body else runAll otherwise
      pure ((← chosen).elim (.next .nothing) .finish)
  | .ifEqual i j body otherwise => do
      let m ← get
      let chosen := if m.rawEqual (m.value i) (m.value j) then runAll body else runAll otherwise
      pure ((← chosen).elim (.next .nothing) .finish)
  | .finish results => do pure (.finish (results.getD (← get).top))

/-- Does steps one by one and journals what they answer; the number of results if one of them ends
    the function. -/
def runAll : List Step → Act StepError (Option Nat)
  | [] => pure none
  | s :: rest => do
      match ← run s with
      | .finish results => pure (some results)
      | .next r =>
          Act.journal r
          runAll rest

end

end Step

end ScriptHost
