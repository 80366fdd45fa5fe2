import ScriptHost.Value

/-! # Arenas

Objects of one type by slot. A slot that was emptied is used again before a new one is made, the
last emptied first.
-/

namespace ScriptHost

/-- Slots with and without an object, and the empty slots in the order of their reuse. -/
structure Arena (α : Type) where
  slots : Array (Option α) := #[]
  free : List Nat := []
  deriving Repr, Inhabited

namespace Arena

variable {α : Type} (a : Arena α)

def get? (slot : Nat) : Option α := (a.slots[slot]?).join

/-- Puts a new object into an empty slot. -/
def insert (x : α) : Nat × Arena α :=
  match a.free with
  | slot :: free => (slot, { slots := a.slots.setIfInBounds slot (some x), free })
  | [] => (a.slots.size, { a with slots := a.slots.push (some x) })

def modify (slot : Nat) (f : α → α) : Arena α :=
  { a with slots := a.slots.modify slot (·.map f) }

def live : Nat := a.slots.foldl (fun n x => if x.isSome then n + 1 else n) 0

/-- The occupied slots, lowest first. -/
def occupied : List (Nat × α) :=
  (a.slots.toList.zipIdx).filterMap fun (x, slot) => x.map (slot, ·)

/-- Whether a slot is kept by marks; slots beyond the marks are. -/
def kept (marks : Array Bool) (slot : Nat) : Bool := marks[slot]?.getD true

/-- The objects that marks do not keep. -/
def garbage (marks : Array Bool) : List (Nat × α) :=
  a.occupied.filter fun (slot, _) => !kept marks slot

/-- Empties the slots of the objects that marks do not keep. -/
def sweep (marks : Array Bool) : Arena α :=
  let freed := (a.garbage marks).map (·.1)
  { slots := a.slots.mapIdx fun slot x => if kept marks slot then x else none
    free := freed.reverse ++ a.free }

end Arena

end ScriptHost
