/-! # Bound types

The native types that scripts can hold. Each has two classes: instances of the first hold a value
in their block, instances of the second hold a pointer to one.
-/

namespace ScriptHost

/-- A native type that is bound to classes. -/
inductive BoundType where
  /-- Two doubles. -/
  | vec2
  /-- A counted object. -/
  | shared
  /-- An identity whose dropping is recorded. -/
  | tracked
  /-- A block that needs more alignment than userdata have. -/
  | wide
  deriving DecidableEq, Repr, Inhabited

namespace BoundType

/-- The class whose instances hold a value. -/
def typeName : BoundType → String
  | .vec2 => "Vec2"
  | .shared => "Shared"
  | .tracked => "Tracked"
  | .wide => "Wide"

/-- The class whose instances hold a pointer. -/
def boxedName (t : BoundType) : String := t.typeName ++ "Ref"

def size : BoundType → Nat
  | .vec2 | .shared => 16
  | .tracked => 8
  | .wide => 32

def alignment : BoundType → Nat
  | .vec2 | .shared | .tracked => 8
  | .wide => 32

end BoundType

end ScriptHost
