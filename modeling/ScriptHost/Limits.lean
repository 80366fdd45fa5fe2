/-! # Limits

The bounds that a machine keeps to, and how often it collects garbage.
-/

namespace ScriptHost

structure Limits where
  /-- Native calls that may be active at a time. -/
  callDepth : Nat := 200
  /-- Stack slots of all frames together. -/
  stackSlots : Nat := 1000000
  /-- A collection is due after this many allocations; `none` switches automatic ones off. -/
  collectInterval : Option Nat := some 4096
  deriving DecidableEq, Repr, Inhabited

def Limits.describe (l : Limits) : String :=
  let interval := match l.collectInterval with
    | some n => "Some(" ++ n.repr ++ ")"
    | none => "None"
  "StateConfig \x7b max_call_depth: " ++ l.callDepth.repr
    ++ ", max_stack_slots: " ++ l.stackSlots.repr
    ++ ", gc_interval: " ++ interval ++ " \x7d"

end ScriptHost
