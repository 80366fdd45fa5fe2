import ScriptHost.StackIndex
import ScriptHost.StringPool
import ScriptHost.Table

/-! # Errors

Why an operation fails, and what travels up through the calls when it does: a message, one of two
conditions of the machine itself, or any value that a script raised.
-/

namespace ScriptHost

/-- The reasons for which operations of the library fail. -/
inductive Fault where
  | noRunningFunction
  | invalidUpvalue (n : Nat)
  | environmentNotTable
  | registryIsFixed
  | invalidIndex (i : StackIndex)
  | addressTooLarge (a : Address)
  | tableExpected (got : String)
  | key (e : KeyError)
  | invalidTraversalKey
  | notIndexable (what : String)
  | indexChainTooLong
  | newindexChainTooLong
  | metatableNotTable
  | noMetatable (kind : ValueKind)
  | fullUserdataExpected
  | tooFewValues
  | notCallable (what : String)
  /-- An argument of the wrong type. -/
  | argumentType (n : Nat) (expected got : String)
  | argumentAbsent (n : Nat)
  | argumentNotIntegral (n : Nat)
  | argumentNotUserdata (n : Nat)
  | noFunctionBelow
  | moduleConflict (name : String)
  | blockTooSmall (size needed : Nat)
  | boxIsNull
  | noProperties (what : String)
  | classExists (name : String)
  | classUnknown (name : String)
  | handleExpected (got : String)
  | handleIsNull (typeName : String)
  | handleOfOtherClass (position typeName boxedName : String)
  | overaligned (alignment limit : Nat)
  deriving DecidableEq, Repr

def Fault.message : Fault → String
  | .noRunningFunction => "no running function"
  | .invalidUpvalue n => s!"invalid upvalue index {n}"
  | .environmentNotTable => "environment must be a table"
  | .registryIsFixed => "the registry cannot be replaced"
  | .invalidIndex i => "invalid stack index " ++ i.describe
  | .addressTooLarge a => "address 0x" ++ Word.hex a ++ " does not fit a light handle"
  | .tableExpected got => s!"table expected, got {got}"
  | .key e => e.message
  | .invalidTraversalKey => "invalid key to 'next'"
  | .notIndexable what => s!"attempt to index a {what} value"
  | .indexChainTooLong => "'__index' chain too long; possible loop"
  | .newindexChainTooLong => "'__newindex' chain too long; possible loop"
  | .metatableNotTable => "metatable must be a table or nil"
  | .noMetatable kind => s!"cannot set the metatable of a {kind.name} value"
  | .fullUserdataExpected => "full userdata expected"
  | .tooFewValues => "not enough values on the stack for call"
  | .notCallable what => s!"attempt to call a {what} value"
  | .argumentType n expected got => s!"bad argument #{n} ({expected} expected, got {got})"
  | .argumentAbsent n => s!"bad argument #{n} (value expected)"
  | .argumentNotIntegral n => s!"bad argument #{n} (number has no integer representation)"
  | .argumentNotUserdata n => s!"Argument {n} is not a userdata"
  | .noFunctionBelow => "no function to call below the arguments"
  | .moduleConflict name => s!"name conflict for module '{name}'"
  | .blockTooSmall size needed =>
      s!"userdata of {size} bytes is too small for its members ({needed} bytes)"
  | .boxIsNull => "boxed userdata holds a null pointer"
  | .noProperties what => s!"cannot install properties on a {what} value"
  | .classExists name => s!"class '{name}' is already defined"
  | .classUnknown name => s!"unknown class '{name}'"
  | .handleExpected got => s!"userdata expected, got {got}"
  | .handleIsNull typeName => s!"{typeName} holds a null pointer"
  | .handleOfOtherClass position typeName boxedName =>
      s!"Arg #{position}: non-{typeName} / {boxedName}"
  | .overaligned alignment limit =>
      s!"alignment {alignment} exceeds userdata alignment {limit}"

/-- What travels up through the calls. -/
inductive ScriptError where
  | runtime (message : String)
  | stackOverflow
  /-- A message handler failed itself. -/
  | errorInHandler
  /-- A raised value that is no string. -/
  | value (v : Value)
  deriving DecidableEq, Repr, Inhabited

namespace ScriptError

def ofFault (f : Fault) : ScriptError := .runtime f.message

def message : ScriptError → String
  | .runtime text => text
  | .stackOverflow => "stack overflow"
  | .errorInHandler => "error in error handling"
  | .value (.int i) => i.repr
  | .value (.float d) => d.render
  | .value v => s!"(error object is a {v.kindName} value)"

/-- The error as a script value: its text, or the raised value. -/
def toValue (e : ScriptError) (strings : StringPool) : Value × StringPool :=
  match e with
  | .value v => (v, strings)
  | e =>
      let (id, strings) := strings.intern (Utf8.encode e.message)
      (.string id, strings)

/-- The error that raises a value; a string becomes its text. -/
def ofValue (v : Value) (strings : StringPool) : ScriptError :=
  match v with
  | .string id => .runtime (Utf8.decodeLossy (strings.get id))
  | v => .value v

end ScriptError

end ScriptHost
