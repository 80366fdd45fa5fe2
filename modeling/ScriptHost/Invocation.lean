import ScriptHost.Marshal.Reader

/-! # Invocations

Calling functions with marshaled arguments. Each entry point finds the callee in its own way, a
global, the value on top or a method, and then shares one core. Protected entry points report every
failure as one message that lists the active frames.
-/

namespace ScriptHost

/-- Whether failures of the callee are intercepted. -/
inductive Protection where
  | unguarded
  | guarded
  deriving DecidableEq, Repr, Inhabited

/-- The message for an error that is neither a string nor a number. -/
def nonStringMessage : String := "Caught non-string error"

namespace Machine

/-- A message followed by a line for every frame but the innermost, innermost first. -/
def withTraceback (m : Machine) (message : String) : String :=
  String.join (message :: m.frames.tail.map fun f => "\n" ++ f.origin.describe)

/-- The message of the error on top of the stack. -/
def errorMessage (m : Machine) : String × Machine :=
  if m.isText .top then
    let (text, m) := m.textAt .top
    (text.getD "", m)
  else (nonStringMessage, m)

/-- The number of the function below `count` arguments when one more value lies above them. It is a
    64-bit number, and wraps around where the frame has fewer values. -/
def functionNumber (m : Machine) (count : Nat) : Nat :=
  if count < m.top then m.top - (count + 1)
  else (((m.top : Int) - count - 1) % 2 ^ 64).toNat

/-- The report of an error that ends the host, with the place of the latest host call if one was
    recorded. -/
def fatalReport (m : Machine) (message : String) : String :=
  if m.callSite then message ++ ": file = " ++ Origin.host.describe else message

end Machine

namespace Act

/-- The message handler that adds the active frames to a message. Other values stay as they are. -/
def traceback : Act ScriptError Nat := do
  let first := StackIndex.fromBottom 1
  if !(← get).isText first then
    modify (·.setTop 1)
    pure 1
  else
    let text ← modifyGet (·.textAt first)
    let m ← get
    modify (·.pushText (m.withTraceback (text.getD "")))
    pure 1

/-- Calls the function below `count` arguments in protected mode with the traceback as handler.
    On failure the error value is left on top. -/
def tracedCall (count : Nat) (wanted : Int) : Act ScriptError Unit := do
  cachedNative .traceback
  -- The handler goes below the function and its arguments.
  let handler := StackIndex.fromBottom ((← get).functionNumber count)
  Op.insert handler
  let outcome ← attempt (protectedCall count wanted (some handler))
  Op.remove handler
  ofExcept outcome

/-- Calls the function below `count` arguments. A guarded call that fails tells no more than a
    message, and leaves the error value on top. -/
def callProtected (protection : Protection) (count : Nat) (wanted : Int) : Act ScriptError Unit :=
  match protection with
  | .unguarded => call count wanted
  | .guarded => do
      match ← attempt (ε := ScriptError) (tracedCall count wanted) with
      | .ok () => pure ()
      | .error _ => throw (.runtime (← modifyGet (·.errorMessage)))

/-- Ends a call whose function lay above so many values: the number of results, or the error with
    function and arguments gone. -/
def settle (below : Nat) : Except ScriptError Unit → Act ScriptError Nat
  | .ok () => do pure ((← get).top - below)
  | .error e => do
      modify (·.setTop below)
      throw e

/-- Calls the function below `count` values and what a format pushed above `top`, unless the format
    could not be read; the number of results. On failure function and arguments are gone. -/
def callFormatted (top count : Nat) (wanted : Int) (protection : Protection)
    (problem : Option FormatError) : Act ScriptError Nat := do
  let m ← get
  let count := count + (m.top - top)
  let below := m.top - count - 1
  match problem with
  | some e => settle below (.error (.runtime e.message))
  | none => do settle below (← attempt (callProtected protection count wanted))

/-- Pushes the values of a format and calls the function below them and `count` values that were
    pushed before. -/
def callMarshaled (count : Nat) (wanted : Int) (ds : List Directive) (args : List Argument)
    (protection : Protection) : Act ScriptError Nat := do
  let top := (← get).top
  if top < count + 1 then fail .noFunctionBelow
  let problem ← safely (Reading.format (top - count) ds args)
  callFormatted top count wanted protection problem

/-- Where an entry point finds the function that it calls. -/
inductive Callee where
  /-- The value on top of the stack. -/
  | onTop
  /-- A global of a dotted name. -/
  | global (name : String)
  /-- A method of a global, which is the first argument. -/
  | method (source name : String)
  /-- A method of the value at an index, which is the first argument. -/
  | methodAt (source : StackIndex) (name : String)
  deriving DecidableEq, Repr, Inhabited

/-- Puts the method of the value on top below it. If there is none a value is taken off. -/
def pushMethod (name : String) : Act ScriptError Unit := do
  match ← attempt (getField .top name) with
  | .ok _ => Op.insert (.fromTop 2)
  | .error e =>
      modify (·.pop 1)
      throw e

/-- Pushes what a callee needs, and gives the number of arguments among it. -/
def pushCallee : Callee → Act ScriptError Nat
  | .onTop => pure 0
  | .global name => do
      let _ ← getGlobal name
      pure 0
  | .method source name => do
      let _ ← getGlobal source
      pushMethod name
      pure 1
  | .methodAt source name => do
      let source := (← get).absolute source
      let _ ← getField source name
      modify (·.pushAt source)
      pure 1

/-- Calls a callee with marshaled arguments; the number of results. -/
def invocation (callee : Callee) (wanted : Int) (ds : List Directive) (args : List Argument)
    (protection : Protection) : Act ScriptError Nat := do
  modify fun m => { m with callSite := true }
  let count ← pushCallee callee
  callMarshaled count wanted ds args protection

/-- Opens libraries in protected mode up to the first that fails; its message. -/
def loadLibraries : List NativeCode → Act ScriptError (Option String)
  | [] => pure none
  | opener :: rest => do
      pushNative opener
      match ← attempt (ε := ScriptError) (tracedCall 0 0) with
      | .ok () => loadLibraries rest
      | .error _ =>
          let message ← modifyGet (·.errorMessage)
          modify (·.pop 1)
          pure (some message)

end Act

end ScriptHost
