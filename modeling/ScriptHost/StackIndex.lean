import ScriptHost.Number.Power

/-! # Stack indices

How an operation names a value: a position in the running frame counted from its bottom or from
its top, or one of the places outside the stack.
-/

namespace ScriptHost

/-- Names a value of the running frame or outside the stack. -/
inductive StackIndex where
  /-- The `n`-th value of the frame from the bottom, from 1 on. -/
  | fromBottom (n : Nat)
  /-- The `n`-th value of the frame from the top, from 1 on. -/
  | fromTop (n : Nat)
  /-- The registry table. -/
  | registry
  /-- The `n`-th upvalue of the running function, from 1 on. -/
  | upvalue (n : Nat)
  /-- The table of global variables. -/
  | environment
  deriving DecidableEq, Repr, Inhabited

namespace StackIndex

def top : StackIndex := .fromTop 1

/-- Negative numbers count from the top, others from the bottom. -/
def ofInt (i : Int) : StackIndex :=
  if i < 0 then .fromTop i.natAbs else .fromBottom i.toNat

/-- Argument `n` of a native function. Numbers are taken as signed 32-bit ones. -/
def argument (n : Nat) : StackIndex := ofInt (Int.bmod n (2 ^ 32))

/-- Whether the index names a place outside the stack. -/
def isPseudo : StackIndex → Bool
  | .fromBottom _ | .fromTop _ => false
  | .registry | .upvalue _ | .environment => true

def describe : StackIndex → String
  | .fromBottom n => s!"Absolute({n})"
  | .fromTop n => s!"RelativeToTop({n})"
  | .registry => "Pseudo(Registry)"
  | .upvalue n => s!"Pseudo(Upvalue({n}))"
  | .environment => "Pseudo(Environment)"

end StackIndex

end ScriptHost
