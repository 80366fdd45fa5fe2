import ScriptHost.Marshal.Directive
import ScriptHost.Native
import ScriptHost.ScriptError

/-! # Replies

What a step of a program answers, and what the journal of a machine records. A value in a reply is
a snapshot: it tells the length of a table or the size of a userdata at that moment.
-/

namespace ScriptHost

/-- An address as it is shown: by the block it lies in, where that is known. -/
inductive Place where
  | inBlock (name : String) (offset : Nat)
  | inUserdata (offset : Nat)
  | bare (a : Address)
  deriving DecidableEq, Repr, Inhabited

/-- A value without its contents. -/
inductive Shallow where
  | nil
  | bool (b : Bool)
  | int (i : Int)
  | float (d : Double)
  | text (bytes : Bytes)
  | light (p : Place)
  | table (length : Nat)
  | userdata (size : Nat)
  | function (origin : Origin)
  deriving DecidableEq, Repr, Inhabited

/-- A value with its contents. Tables and userdata are numbered in the order in which they are
    met, and shown once. -/
inductive Dump where
  | leaf (s : Shallow)
  | seen (id : Nat)
  | table (id length : Nat) (entries : List (Dump × Dump)) (metatable : Option Dump)
  | userdata (id size : Nat) (userValue metatable : Option Dump)
  deriving Repr, Inhabited

/-- Why a step fails. -/
inductive StepError where
  | script (e : ScriptError)
  | format (e : FormatError)
  /-- What a protected entry point reports. -/
  | thrown (message : String)
  | member (e : MemberError)
  deriving DecidableEq, Repr, Inhabited

namespace StepError

def message : StepError → String
  | .script e => e.message
  | .format e => e.message
  | .thrown text => text
  | .member e => e.message

/-- The error as it is raised by the function whose step failed. -/
def toScriptError : StepError → ScriptError
  | .script e => e
  | e => .runtime e.message

end StepError

/-- What the reader of a format meets. -/
inductive ReadResult where
  | element
  /-- The end of the format. -/
  | finish
  deriving DecidableEq, Repr, Inhabited

/-- All that can be asked about one value. -/
structure Inspection where
  kind : ValueKind
  typeName : String
  isNone : Bool
  isNil : Bool
  isNoneOrNil : Bool
  isBoolean : Bool
  isNumber : Bool
  isString : Bool
  isTable : Bool
  isFunction : Bool
  isUserdata : Bool
  isLight : Bool
  isTrue : Bool
  integer : Option Int
  number : Option Double
  rawLength : Nat
  pointer : Option Place
  size : Option Nat
  deriving Repr, Inhabited

/-- The answer of a step. -/
inductive Reply where
  | nothing
  | bool (b : Bool)
  | int (i : Int)
  | kind (k : ValueKind)
  | optionalKind (k : Option ValueKind)
  /-- The type of a value, and what messages call it. -/
  | typed (k : ValueKind) (described : String)
  | index (i : StackIndex)
  | inspection (i : Inspection)
  | text (s : String)
  | bytes (b : Bytes)
  | optionalBytes (b : Option Bytes)
  | float (d : Double)
  | single (bits : UInt32)
  | dump (d : Dump)
  | entries (es : List (Shallow × Shallow))
  | place (p : Place)
  | optionalPlace (p : Option Place)
  | frame (origin : Option Origin)
  /-- What a reader met or why it stopped, each with the number of arguments left. -/
  | reads (rs : List (Except FormatError ReadResult × Nat))
  | hex (b : Bytes)
  /-- A vector at an address, with its coordinates if it lies in a known block. -/
  | vector (p : Place) (xy : Option (Double × Double))
  | counted (value : Int) (count : Nat)
  | absent
  | destroyed
  /-- An error that was caught, with the value it carries. -/
  | failure (e : StepError) (value : Option Shallow)
  deriving Inhabited

/-- Whether an answer says nothing. -/
def Reply.isNothing : Reply → Bool
  | .nothing | .dump (.leaf .nil) | .optionalPlace none => true
  | _ => false

/-- What the journal records. -/
inductive JournalEntry where
  | note (message : String)
  | reply (r : Reply)
  /-- A native value was dropped. -/
  | dropped (t : BoundType) (value : Int)
  deriving Inhabited

end ScriptHost
