import ScriptHost.Marshal.Format
import ScriptHost.Namespace
import ScriptHost.Sequence

/-! # Marshaling

Arguments of the host are pushed by the elements of a format. An element that a false condition
suppresses takes its arguments all the same and pushes nothing. A table collects the values of its
elements at its border and the pairs under their keys.
-/

namespace ScriptHost

/-- An argument of the host. -/
inductive Argument where
  | int (i : Int)
  | number (d : Double)
  | bool (b : Bool)
  | text (s : String)
  | function (code : NativeCode)
  | pointer (a : Address)
  | index (i : StackIndex)
  deriving DecidableEq, Repr, Inhabited

/-- Reading with the arguments that are left; both they and the machine stay as they were left when
    reading fails. -/
abbrev Reading := ExceptT FormatError (StateT (List Argument) (Act Empty))

namespace Reading

/-- An operation of the machine that cannot fail. -/
def perform {α : Type} (x : Act Empty α) : Reading α := liftM x

def change (f : Machine → Machine) : Reading Unit := perform (modify f)

def machine : Reading Machine := perform get

/-- An operation of the machine whose failure is reported as a format error. -/
def orFail {α : Type} (e : FormatError) (x : Act ScriptError α) : Reading α := do
  match ← perform (Act.attempt x) with
  | .ok a => pure a
  | .error _ => throw e

def nextArgument : Reading Argument := do
  match ← getThe (List Argument) with
  | [] => throw .missingArgument
  | a :: rest =>
      set rest
      pure a

def condition : Reading Bool := do
  match ← nextArgument with
  | .bool b => pure b
  | _ => throw .argumentMismatch

/-- How an element is read. -/
structure Mode where
  /-- Values named from the start are counted back from this position. -/
  start : Nat
  /-- Whether the element is the key of a pair. -/
  asKey : Bool := false
  /-- Whether a false condition suppresses the element. -/
  suppressed : Bool := false
  deriving DecidableEq, Repr

/-- Does what an element does to the machine unless it is suppressed. -/
def emit (mode : Mode) (x : Act Empty Unit) : Reading Unit :=
  if mode.suppressed then pure () else perform x

/-- The index that an argument names; integers must fit 32 bits. -/
def argumentIndex : Argument → Except FormatError StackIndex
  | .index i => .ok i
  | .int n => if -2 ^ 31 ≤ n ∧ n < 2 ^ 31 then .ok (.ofInt n) else .error .badIndex
  | _ => .error .argumentMismatch

/-- The index with positions from the top counted back from a start, if it names a value then. -/
def resolveIndex (m : Machine) (start : Nat) (i : StackIndex) : Option StackIndex :=
  let i := match i with
    | .fromTop n => StackIndex.fromBottom (start - n)
    | i => i
  match i with
  | .fromBottom n => if n = 0 ∨ m.top < n then none else some i
  | i => some i

/-- Pushes a copy of a stack slot. -/
def slot (mode : Mode) (relative : Bool) : Reading Unit := do
  let i ← MonadExcept.ofExcept (argumentIndex (← nextArgument))
  let m ← machine
  match resolveIndex m (if relative then m.top + 1 else mode.start) i with
  | none => throw .badIndex
  | some i =>
      if mode.asKey then
        match m.value i with
        | .nil => throw .nullKey
        | .float d => if d.isNaN then throw .nanKey
        | _ => pure ()
      emit mode (modify (·.pushAt i))

/-- Pushes the light handle of an address. -/
def light (mode : Mode) (nonNull : Bool) : Reading Unit := do
  match ← nextArgument with
  | .pointer a =>
      if mode.suppressed then pure ()
      else if a = 0 then
        if nonNull then throw .nullUserdata
        else if mode.asKey then throw .nullKey
        else change (·.push .nil)
      else orFail .argumentMismatch (Op.pushLight a)
  | _ => throw .argumentMismatch

def global (mode : Mode) : Reading Unit := do
  match ← nextArgument with
  | .text name =>
      if mode.suppressed then pure ()
      else
        let _ ← orFail .badGlobal (Act.getGlobal name)
        if mode.asKey && (← machine).topValue.isNil then
          change (·.pop 1)
          throw .nullKey
  | _ => throw .argumentMismatch

/-- Reads a directive that builds one value by itself. -/
def scalar (mode : Mode) : Directive → Reading Unit
  | .slotFromStart => slot mode false
  | .slotFromTop => slot mode true
  | .boolean => do
      let b ← condition
      emit mode (modify (·.push (.bool b)))
  | .constTrue => emit mode (modify (·.push (.bool true)))
  | .constFalse => emit mode (modify (·.push (.bool false)))
  | .function => do
      match ← nextArgument with
      | .function code => emit mode (Act.pushNative code)
      | _ => throw .argumentMismatch
  | .integer => do
      match ← nextArgument with
      | .int i => emit mode (modify (·.pushInt i))
      | _ => throw .argumentMismatch
  | .number => do
      let d ← match ← nextArgument with
        | .number d => pure d
        | .int i => pure (Double.ofInt i)
        | _ => throw .argumentMismatch
      if mode.asKey && d.isNaN then throw .nanKey
      emit mode (modify (·.push (.ofDouble d)))
  | .text => do
      match ← nextArgument with
      | .text s => emit mode (modify (·.pushText s))
      | _ => throw .argumentMismatch
  | .light => light mode false
  | .lightNonNull => light mode true
  | .nil => do
      if mode.asKey then throw .nullKey
      emit mode (modify (·.push .nil))
  | .global => global mode
  | .openTable | .closeTable | .condition | .key | .unknown _ => throw .badType

mutual

def element (mode : Mode) : Element → Reading Unit
  | .scalar d => scalar mode d
  | .table es => do
      let inner := { mode with asKey := false }
      emit mode Act.newTable
      items inner (.fromBottom (← machine).top) es
  | .condition e => do
      let holds ← condition
      element { mode with suppressed := mode.suppressed || !holds } e
  | .pair key value => do
      element { mode with asKey := true } key
      element { mode with asKey := false } value
      if !mode.suppressed then orFail .nullKey (Op.rawSet (.fromTop 3))
  | .bad e => throw e

/-- Reads the elements of the table at an index. -/
def items (mode : Mode) (table : StackIndex) : List Element → Reading Unit
  | [] => pure ()
  | e :: es => do
      let before := (← machine).top
      element mode e
      if before < (← machine).top then orFail .unclosedTable (Op.append table)
      items mode table es

end

def all (mode : Mode) : List Element → Reading Unit
  | [] => pure ()
  | e :: es => do
      element mode e
      all mode es

/-- Reads the elements of a format one by one up to the first that fails; what each came to and the
    number of arguments left after it. -/
def trace (mode : Mode) (args : List Argument) :
    List Element → Act Empty (List (Except FormatError ReadResult × Nat))
  | [] => pure [(.ok .finish, args.length)]
  | e :: es => do
      match ← StateT.run (ExceptT.run (element mode e)) args with
      | (.ok (), rest) =>
          let later ← trace mode rest es
          pure ((.ok .element, rest.length) :: later)
      | (.error e, rest) => pure [(.error e, rest.length)]

/-- Reads a format; the error at which it stopped, if it did. -/
def format (start : Nat) (ds : List Directive) (args : List Argument) :
    Act Empty (Option FormatError) := do
  match ← StateT.run (ExceptT.run (all { start } (Format.elements ds))) args with
  | (.ok (), _) => pure none
  | (.error e, _) => pure (some e)

end Reading

namespace Act

/-- An operation that cannot fail, among those that can. -/
def safely {ε α : Type} (x : Act Empty α) : Act ε α := mapError Empty.elim x

/-- Pushes the values of a format and gives their number. On failure the stack is as it was. -/
def marshal (ds : List Directive) (args : List Argument) : Act FormatError Nat := do
  let top := (← get).top
  match ← safely (Reading.format (top + 1) ds args) with
  | none => pure ((← get).top - top)
  | some e =>
      modify (·.setTop top)
      throw e

end Act

end ScriptHost
