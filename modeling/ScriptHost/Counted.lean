/-! # Counted objects

Native objects that carry their own reference count. Whoever keeps one retains it; the object is
destroyed when the last reference is released.
-/

namespace ScriptHost

/-- An object with its count of references. -/
structure Counted where
  value : Int
  count : Nat := 0
  deriving DecidableEq, Repr, Inhabited

namespace Counted

/-- One reference less; a count of zero stays. -/
def decrement (count : Nat) : Nat := count - 1

def retained (c : Counted) : Counted := { c with count := c.count + 1 }

def released (c : Counted) : Counted := { c with count := decrement c.count }

def describe (c : Counted) : String :=
  "Counted \x7b count: " ++ c.count.repr ++ ", value: " ++ c.value.repr ++ " \x7d"

end Counted

/-- The counted objects that are alive, by identity. -/
structure CountedStore where
  live : List (Nat × Counted) := []
  deriving DecidableEq, Repr, Inhabited

namespace CountedStore

variable (s : CountedStore)

def get? (id : Nat) : Option Counted := s.live.lookup id

/-- A new object that nobody holds yet. -/
def insert (id : Nat) (value : Int) : CountedStore := { live := (id, { value }) :: s.live }

def modify (id : Nat) (f : Counted → Counted) : CountedStore :=
  { live := s.live.map fun (i, c) => if i = id then (i, f c) else (i, c) }

def retain (id : Nat) : CountedStore := s.modify id Counted.retained

/-- One reference less. At zero the object is destroyed; then its value is returned too. -/
def release (id : Nat) : Option Int × CountedStore :=
  match s.get? id with
  | none => (none, s)
  | some c =>
      if Counted.decrement c.count = 0 then
        (some c.value, { live := s.live.filter (·.1 ≠ id) })
      else (none, s.modify id Counted.released)

end CountedStore

end ScriptHost
