import ScriptHost.BoundType
import ScriptHost.Member

/-! # Native functions

What a function object does when it is called. Functions are data: a named program of the host, one
of the stock hooks of bound types, or a service of the library. The handlers of native properties
carry the description of the properties.
-/

namespace ScriptHost

/-- The stock constructors and finalizers of bound types. -/
inductive Hook where
  /-- Copies the value behind argument 2 into the instance. -/
  | copyValue (t : BoundType)
  /-- Points at the value behind argument 2 without owning it. -/
  | borrow (t : BoundType)
  /-- Points at a fresh counted object. -/
  | adoptFresh
  /-- Shares the target of the boxed instance at argument 2. -/
  | shareTarget
  /-- Retains the object behind argument 2. -/
  | retainSource
  /-- Retains the object behind argument 2, or points nowhere if that is nil. -/
  | retainSourceOrNull
  /-- Gives up the target. -/
  | releaseTarget
  /-- Drops the value in the block. -/
  | dropValue (t : BoundType)
  deriving DecidableEq, Repr, Inhabited

/-- The identity of a native function. -/
inductive NativeCode where
  /-- A program of the host, by name. -/
  | program (name : String)
  | hook (h : Hook)
  /-- The message handler that lists the active frames. -/
  | traceback
  | classNew
  | classIsInstance
  | classIsType
  deriving DecidableEq, Repr, Inhabited

/-- How a handle's block relates to the native object. -/
inductive Addressing where
  /-- The block holds the object. -/
  | inBlock
  /-- The block holds a pointer to the object. -/
  | byPointer
  deriving DecidableEq, Repr, Inhabited

/-- The properties of a native type: its members, and functions that take the place of some. -/
structure Peer where
  members : MemberTable
  getters : List (String × NativeCode) := []
  setters : List (String × NativeCode) := []
  addressing : Addressing
  deriving DecidableEq, Repr, Inhabited

/-- What a function object does. -/
inductive Behaviour where
  | code (c : NativeCode)
  /-- Reads a property of argument 1. -/
  | readProperty (p : Peer)
  /-- Writes a property of argument 1. -/
  | writeProperty (p : Peer)
  /-- Reads through the first upvalue, and falls back to the table in the second. -/
  | readPropertyOrField
  deriving DecidableEq, Repr, Inhabited

/-- Where a function comes from, as a traceback names it. -/
inductive Origin where
  /-- A place in the host program. -/
  | host
  | named (name : String)
  deriving DecidableEq, Repr, Inhabited

/-- The text of an origin in a traceback. -/
def Origin.describe : Origin → String
  | .host => "<host>"
  | .named name => name

/-- The payload of a function object. -/
structure Native where
  behaviour : Behaviour
  origin : Origin
  deriving DecidableEq, Repr, Inhabited

end ScriptHost
