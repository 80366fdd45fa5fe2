import ScriptHost.Value

/-! # The identity cache

Values remembered under the identity of what they were made for: a token, or a native function.
-/

namespace ScriptHost

/-- What a cached value belongs to. `φ` is the identity of native functions. -/
inductive CacheKey (φ : Type) where
  | token (n : Nat)
  | native (f : φ)
  deriving DecidableEq, Repr

/-- Cached values, none of them nil. -/
structure IdentityCache (φ : Type) where
  entries : List (CacheKey φ × Value) := []
  /-- How many fresh tokens were given out. -/
  issued : Nat := 0
  deriving Repr

namespace IdentityCache

variable {φ : Type} [DecidableEq φ] (c : IdentityCache φ)

instance : Inhabited (IdentityCache φ) := ⟨{}⟩

/-- Fresh tokens lie above this number. -/
def freshBase : Nat := 2 ^ 48

def get? (key : CacheKey φ) : Option Value := c.entries.lookup key

def erase (key : CacheKey φ) : IdentityCache φ :=
  { c with entries := c.entries.filter (·.1 ≠ key) }

/-- Remembers a value; nil forgets the key. -/
def insert (key : CacheKey φ) (v : Value) : IdentityCache φ :=
  let rest := c.erase key
  if v.isNil then rest else { rest with entries := (key, v) :: rest.entries }

/-- A token that was never given out before. -/
def fresh : Nat × IdentityCache φ :=
  (freshBase + c.issued + 1, { c with issued := c.issued + 1 })

def values : List Value := c.entries.map (·.2)

def size : Nat := c.entries.length

def clear : IdentityCache φ := { c with entries := [] }

end IdentityCache

end ScriptHost
