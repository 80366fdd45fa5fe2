import ScriptHost.Counted

/-! # Handles

Named handles that each own one reference to a counted object. Overwriting or dropping a handle
gives its reference up; leaking one keeps the reference without the handle.
-/

namespace ScriptHost

/-- Counted objects with the names of objects and handles. -/
structure Handles where
  store : CountedStore := {}
  /-- The identity of the next object. -/
  next : Nat := 0
  /-- The object of each name, the latest first. -/
  objects : List (String × Nat) := []
  /-- The object of each handle. -/
  held : List (String × Nat) := []
  deriving Repr, Inhabited

namespace Handles

variable (h : Handles)

def object? (name : String) : Option Nat := h.objects.lookup name

def handle? (name : String) : Option Nat := h.held.lookup name

def named? (name : String) : Option Counted := (h.object? name).bind h.store.get?

def target? (name : String) : Option Counted := (h.handle? name).bind h.store.get?

def create (name : String) (value : Int) : Handles :=
  { h with
    store := h.store.insert h.next value
    next := h.next + 1
    objects := (name, h.next) :: h.objects }

def retain (id : Nat) : Handles := { h with store := h.store.retain id }

/-- Gives up a reference; the value of the object if that destroyed it. -/
def release (id : Nat) : Option Int × Handles :=
  let (dropped, store) := h.store.release id
  (dropped, { h with store })

/-- Makes a name stand for a reference that is already owned, and then gives up the reference
    that the name stood for before. -/
def adopt (name : String) (id : Nat) : Option Int × Handles :=
  let old := h.handle? name
  let h := { h with held := (name, id) :: h.held.filter (·.1 ≠ name) }
  match old with
  | some old => h.release old
  | none => (none, h)

/-- Makes a name stand for a new reference. -/
def hold (name : String) (id : Nat) : Option Int × Handles := (h.retain id).adopt name id

/-- Forgets a handle and keeps its reference. -/
def leak (name : String) : Handles := { h with held := h.held.filter (·.1 ≠ name) }

def drop (name : String) : Option Int × Handles :=
  match h.handle? name with
  | some id => (h.leak name).release id
  | none => (none, h)

/-- Drops all handles in the order of their names; the values of the objects destroyed. -/
def dropAll : List Int × Handles :=
  let names := (h.held.map (·.1)).mergeSort (fun a b => !decide (b < a))
  names.foldl (fun (dropped, h) name =>
    let (value, h) := drop h name
    (dropped ++ value.toList, h)) ([], h)

end Handles

end ScriptHost
