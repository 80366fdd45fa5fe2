import ScriptHost.Heap
import ScriptHost.IdentityCache
import ScriptHost.Limits
import ScriptHost.Reply

/-! # The machine

A value stack that is shared by nested native calls, the heap and the strings behind its values,
and the protected calls that are active. Each running function sees the part of the stack above
its own frame base.
-/

namespace ScriptHost

/-- The fields of metatables that the machine looks up itself. -/
inductive Metafield where
  | index
  | newindex
  | call
  | finalizer
  | name
  deriving DecidableEq, Repr, Inhabited

namespace Metafield

def all : List Metafield := [.index, .newindex, .call, .finalizer, .name]

def text : Metafield → String
  | .index => "__index"
  | .newindex => "__newindex"
  | .call => "__call"
  | .finalizer => "__gc"
  | .name => "__name"

/-- The number of the name in every machine: the names are the first strings of the pool. -/
def id : Metafield → StringId
  | .index => 0
  | .newindex => 1
  | .call => 2
  | .finalizer => 3
  | .name => 4

end Metafield

/-- An active native call. -/
structure Frame where
  /-- The stack position of the running function; its own values lie above. -/
  function : Nat
  origin : Origin
  deriving DecidableEq, Repr, Inhabited

/-- The first stack position of a frame's own values. -/
def Frame.base (f : Frame) : Nat := f.function + 1

/-- What a message handler made of an error. -/
structure Decoration where
  raised : Value
  outcome : Value
  deriving DecidableEq, Repr, Inhabited

/-- An active protected call. -/
structure Guard where
  handler : Option Value := none
  /-- Whether the handler is running. -/
  running : Bool := false
  /-- The latest outcome of the handler that still stands. -/
  decoration : Option Decoration := none
  deriving DecidableEq, Repr, Inhabited

/-- Something that happened in a run. Userdata are told by their serials. -/
inductive Event where
  /-- A cycle marked the heap; these are the objects that the roots reached. -/
  | cycle (reached : Ref → Prop)
  /-- The machine is being closed. -/
  | closing
  /-- The cycle, or the closing, found that the finalizer of the userdata in a slot is due. -/
  | queued (slot serial : Nat)
  /-- A queued slot has its turn. -/
  | turn (slot : Nat)
  /-- The finalizer of the userdata in a slot was entered. -/
  | finalizing (slot serial : Nat)
  /-- The class constructor of a userdata returned. -/
  | constructed (serial : Nat)
  /-- The message handler of the protected call at a nesting level is called with a raised value. -/
  | handling (level : Nat) (handler raised : Value)
  /-- The message handler of the protected call at a nesting level is done with a raised value. What
      it returned is its answer; it has none if it failed. -/
  | handled (level : Nat) (raised : Value) (answer : Option Value)
  deriving Inhabited

/-- What the host remembers by name. -/
structure HostNames where
  /-- Cache tokens. -/
  tokens : List (String × Nat) := []
  /-- Addresses of objects that the registry keeps alive. -/
  anchored : List (String × Address) := []
  deriving Repr, Inhabited

/-- The state of a machine. -/
structure Machine where
  stack : Array Value := #[]
  /-- Active native calls, innermost first. -/
  frames : List Frame := []
  heap : Heap Native := {}
  strings : StringPool := {}
  /-- The slot of the registry table. -/
  registry : Nat := 0
  /-- The slot of the table of globals. -/
  globals : Nat := 1
  cache : IdentityCache NativeCode := {}
  /-- Active protected calls, innermost first. -/
  guards : List Guard := []
  limits : Limits := {}
  /-- Whether a host call site was recorded. -/
  callSite : Bool := false
  closed : Bool := false
  /-- The addresses of the counted objects that were destroyed. -/
  destroyed : List Address := []
  names : HostNames := {}
  /-- What happened, newest first. -/
  events : List Event := []
  /-- What the host is told, newest first. -/
  journal : List JournalEntry := []
  deriving Inhabited

namespace Machine

/-- A machine with an empty stack, a registry and globals. -/
def create (limits : Limits := {}) : Machine :=
  let heap : Heap Native := { interval := limits.collectInterval }
  let (registry, heap) := heap.newTable
  let (globals, heap) := heap.newTable
  let strings := Metafield.all.foldl (fun p f => (StringPool.intern p (Utf8.encode f.text)).2) {}
  { heap, registry, globals, strings, limits }

end Machine

/-- An operation on a machine that calls no function. -/
abbrev Op (ε : Type) := EStateM ε Machine

/-- How native functions are run: `enter b` runs the body of a function in the frame that is
    already active for it, and gives the number of its results. -/
structure Host where
  enter : Behaviour → Op ScriptError Nat

/-- An operation on a machine that may call functions. -/
abbrev Act (ε : Type) := ReaderT Host (Op ε)

def fail {α : Type} (f : Fault) : Op ScriptError α := throw (.ofFault f)

namespace Act

/-- Runs an operation and gives its result or its error; the machine stays as it was left. -/
def attempt {ε ε' α : Type} (x : Act ε α) : Act ε' (Except ε α) := fun host m =>
  match x host m with
  | .ok a m => .ok (.ok a) m
  | .error e m => .ok (.error e) m

def mapError {ε ε' α : Type} (f : ε → ε') (x : Act ε α) : Act ε' α := fun host m =>
  match x host m with
  | .ok a m => .ok a m
  | .error e m => .error (f e) m

/-- Takes an operation's result or error as one's own. -/
def ofExcept {ε α : Type} : Except ε α → Act ε α
  | .ok a => pure a
  | .error e => throw e

end Act

end ScriptHost
