import ScriptHost.Machine.Convert

/-! # Calls

Calling the function at a stack position, and calling it in protected mode. A call puts a frame on
top of the others, lets the host run the function, and moves the results to where the function was.
When a function fails, the message handler of the innermost protected call sees the error while the
failing frames are still active; what it makes of the error stands until some function returns
normally.
-/

namespace ScriptHost

namespace Machine

variable (m : Machine)

/-- The stack position of the function below `count` arguments. -/
def functionBelow? (count : Nat) : Option Nat :=
  if count + 1 ≤ m.top then some (m.base + (m.top - (count + 1))) else none

/-- Whether a limit keeps functions from being called. -/
def atLimit : Bool := m.limits.callDepth ≤ m.depth || m.limits.stackSlots < m.stack.size

/-- Puts a frame on top of the others. -/
def enterFrame (f : Frame) : Machine := { m with frames := f :: m.frames }

def leaveFrame : Machine := { m with frames := m.frames.tail }

/-- Drops frames until so many are left. -/
def truncateFrames (depth : Nat) : Machine :=
  { m with frames := m.frames.drop (m.frames.length - depth) }

def pushGuard (g : Guard) : Machine := { m with guards := g :: m.guards }

def popGuard : Machine := { m with guards := m.guards.tail }

def modifyGuard (f : Guard → Guard) : Machine :=
  match m.guards with
  | [] => m
  | g :: rest => { m with guards := f g :: rest }

/-- An error as a script value. -/
def errorValue (e : ScriptError) : Value × Machine :=
  let (v, strings) := e.toValue m.strings
  (v, { m with strings })

/-- Starts a run of the message handler of the innermost protected call on a raised value. -/
def beginHandling (handler raised : Value) : Machine :=
  let m := m.modifyGuard fun g => { g with running := true }
  ({ m with events := .handling m.guards.length handler raised :: m.events }.push handler).push raised

/-- The outcome of a run of a message handler: what it returned, or a text if it failed. -/
def handlerOutcome (answer : Option Value) : Value × Machine :=
  match answer with
  | some v => (v, m)
  | none => m.errorValue .errorInHandler

/-- Ends the run of a message handler, which lay at a stack position, on a raised value. -/
def endHandling (position : Nat) (raised : Value) (answer : Option Value) : Machine :=
  let (outcome, m) := m.handlerOutcome answer
  let m := (m.truncate position).modifyGuard fun g =>
    { g with running := false, decoration := some { raised, outcome } }
  { m with events := .handled m.guards.length raised answer :: m.events }

/-- A function that returned normally has recovered from what was raised below it. -/
def forgetDecoration : Machine :=
  m.modifyGuard fun g => if g.running then g else { g with decoration := none }

/-- Moves the top `count` values down to a stack position and drops what lay between. -/
def moveDown (position count : Nat) : Machine :=
  let moved := m.stack.extract (m.stack.size - count) m.stack.size
  { m with stack := m.stack.shrink position ++ moved }

/-- Ends the innermost call, whose function lies at a stack position. Of the values of its frame
    the last `count` remain in the place of the function, cut or filled up to `wanted` of them
    unless that is negative. -/
def returnResults (position : Nat) (wanted : Int) (count : Nat) : Machine :=
  let m := m.forgetDecoration
  let base := match m.frames with
    | f :: _ => f.base
    | [] => position + 1
  let count := min count (m.stack.size - base)
  let m := m.leaveFrame.moveDown position count
  if wanted < 0 then m else m.resize (position + wanted.toNat)

/-- Ends a protected call that failed: drops what is left of its frames, and puts the error value in
    the place of the function. If the handler saw this error, what it made of it counts. -/
def failProtected (depth position : Nat) (e : ScriptError) : ScriptError × Machine :=
  let decoration := match m.guards with
    | g :: _ => g.decoration
    | [] => none
  let (raised, m) := (m.popGuard.truncateFrames depth).errorValue e
  let final := match decoration with
    | some d => if d.raised == raised then ScriptError.ofValue d.outcome m.strings else e
    | none => e
  let (v, m) := m.errorValue final
  (final, (m.truncate position).push v)

end Machine

namespace Act

/-- The slot of the function to run for the value at a stack position. For a value that is no
    function its `__call` field is put below it and run instead. -/
def callee (position : Nat) : Op ScriptError Nat := do
  let m ← get
  let v := m.stack[position]?.getD .nil
  match v with
  | .function slot => pure slot
  | v =>
      match m.metafield v .call with
      | .function slot =>
          modify (·.insertAt position (.function slot))
          pure slot
      | _ => fail (.notCallable (m.describe v))

/-- Calls the function at a stack position with the values above it as arguments. `failed` sees
    the error of the function while its frame is still active. -/
def invoke (failed : ScriptError → Act ScriptError Unit) (position : Nat) (wanted : Int) :
    Act ScriptError Unit := do
  if (← get).atLimit then throw .stackOverflow
  let slot ← callee position
  match (← get).heap.function? slot with
  | none => fail (.notCallable ValueKind.function.name)
  | some f =>
      modify (·.enterFrame { function := position, origin := f.body.origin })
      let host ← read
      match ← attempt (liftM (host.enter f.body.behaviour)) with
      | .ok count => modify (·.returnResults position wanted count)
      | .error e =>
          failed e
          modify (·.leaveFrame)
          throw e

/-- Calls a message handler. Its own errors are not shown to a handler again. -/
def callHandler (position : Nat) : Act ScriptError Unit :=
  invoke (fun e => modify fun m => (m.errorValue e).2) position 1

/-- Runs the message handler of the innermost protected call on a raised value. -/
def runHandler {ε : Type} (handler raised : Value) : Act ε Unit := do
  let position := (← get).stack.size
  modify (·.beginHandling handler raised)
  let answer ← match ← attempt (callHandler position) with
    | .ok () => pure (some ((← get).stack[position]?.getD .nil))
    | .error _ => pure none
  modify (·.endHandling position raised answer)

/-- Lets the message handler of the innermost protected call see an error, unless it is running or
    has seen this error already. -/
def showHandler {ε : Type} (e : ScriptError) : Act ε Unit := do
  let raised ← modifyGet (·.errorValue e)
  match (← get).guards with
  | [] => pure ()
  | g :: _ =>
      let known := match g.decoration with
        | some d => d.raised == raised
        | none => false
      match g.handler with
      | none => pure ()
      | some handler => if g.running || known then pure () else runHandler handler raised

/-- Calls the function at a stack position with the values above it as arguments. -/
def callAt (position : Nat) (wanted : Int) : Act ScriptError Unit :=
  invoke (fun e => showHandler e) position wanted

/-- The stack position of the function below `count` arguments. -/
def functionBelow (count : Nat) : Op ScriptError Nat := do
  match (← get).functionBelow? count with
  | some p => pure p
  | none => fail .tooFewValues

/-- Calls the function below `count` arguments. -/
def call (count : Nat) (wanted : Int) : Act ScriptError Unit := do
  callAt (← functionBelow count) wanted

/-- Calls the function below `count` arguments in protected mode. When it fails, the function and
    its arguments are replaced by the error value, which the handler may have transformed. -/
def protectedCall (count : Nat) (wanted : Int) (handler : Option StackIndex) :
    Act ScriptError Unit := do
  let position ← functionBelow count
  let m ← get
  let depth := m.depth
  let handlerValue := handler.map m.value
  modify (·.pushGuard { handler := handlerValue })
  match ← attempt (callAt position wanted) with
  | .ok () => modify (·.popGuard)
  | .error e =>
      -- An error from before any frame was active is shown to the handler too.
      showHandler e
      let final ← modifyGet (·.failProtected depth position e)
      throw final

end Act

end ScriptHost
