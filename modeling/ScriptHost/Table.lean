import ScriptHost.Table.Key

/-! # Tables

A table keeps the values of the keys 1, 2, … in an array as long as they come in sequence, and all
other entries in insertion order. An entry outside the array that is set to nil keeps its place,
so that a traversal can go on from it.
-/

namespace ScriptHost

/-- A script table. -/
structure Table where
  /-- The values of the keys from 1 on; the last one is not nil. -/
  array : Array Value := #[]
  /-- The other entries in insertion order, each key once. -/
  entries : List (Key × Value) := []
  /-- The slot of the metatable. -/
  metatable : Option Nat := none
  deriving Repr, Inhabited

namespace Table

/-- The value of a key among entries; nil if there is none. -/
def entryValue (entries : List (Key × Value)) (key : Key) : Value :=
  (entries.lookup key).getD .nil

/-- Replaces the value of a key that is present; `none` if it is not. -/
def overwriteValue? (key : Key) (value : Value) : List (Key × Value) → Option (List (Key × Value))
  | [] => none
  | (k, v) :: rest =>
      if k = key then some ((k, value) :: rest)
      else (overwriteValue? key value rest).map ((k, v) :: ·)

/-- Stores among entries: a present key keeps its place, a new one goes last, and nil is stored
    only over a present key. -/
def storeEntry (entries : List (Key × Value)) (key : Key) (value : Value) :
    List (Key × Value) :=
  match overwriteValue? key value entries with
  | some replaced => replaced
  | none => if value.isNil then entries else entries ++ [(key, value)]

variable (t : Table)

/-- The position in the array of an integer key. -/
def arrayIndex? (i : Int) : Option Nat :=
  if 1 ≤ i ∧ i ≤ t.array.size then some (i - 1).toNat else none

def getInt (i : Int) : Value :=
  match t.arrayIndex? i with
  | some n => t.array[n]?.getD .nil
  | none => entryValue t.entries (.integer i)

/-- The value of a key; nil if there is none. -/
def get : Key → Value
  | .integer i => t.getInt i
  | key => entryValue t.entries key

/-- Drops nils at the end of an array. -/
def trim (array : Array Value) : Array Value :=
  if h : 0 < array.size then
    if array[array.size - 1].isNil then trim array.pop else array
  else array
termination_by array.size
decreasing_by simp_wf; omega

/-- Moves the entries that continue the array into it. An entry that was set to nil and would come
    next is dropped, and ends the move. -/
def absorb (array : Array Value) (entries : List (Key × Value)) : Nat → Table
  | 0 => { array, entries }
  | fuel + 1 =>
      let key := Key.integer (array.size + 1)
      match entries.lookup key with
      | none => { array, entries }
      | some value =>
          let entries := entries.eraseP (·.1 == key)
          if value.isNil then { array, entries } else absorb (array.push value) entries fuel

def setInt (i : Int) (value : Value) : Table :=
  match t.arrayIndex? i with
  | some n =>
      let array := t.array.setIfInBounds n value
      { t with array := if n + 1 = array.size && value.isNil then trim array else array }
  | none =>
      if i = t.array.size + 1 && !value.isNil then
        { absorb (t.array.push value) t.entries t.entries.length with metatable := t.metatable }
      else { t with entries := storeEntry t.entries (.integer i) value }

def set : Key → Value → Table
  | .integer i, value => t.setInt i value
  | key, value => { t with entries := storeEntry t.entries key value }

/-- Reads under a value; nil and NaN read as nil. -/
def getValue (v : Value) : Value :=
  match Key.ofValue? v with
  | some key => t.get key
  | none => .nil

/-- Stores under a value, which must be neither nil nor NaN. -/
def setValue (v value : Value) : Except KeyError Table :=
  match v, Key.ofValue? v with
  | .nil, _ => .error .isNil
  | _, some key => .ok (t.set key value)
  | _, none => .error .isNaN

/-- Counts on from `n` while the next integer key among the entries has a value. -/
def countOn (n : Nat) : Nat → Nat
  | 0 => n
  | fuel + 1 =>
      if (entryValue t.entries (.integer (n + 1))).isNil then n else countOn (n + 1) fuel

/-- Halves a part of an array until a position is left where values give way to nil. -/
def bisect (array : Array Value) (low high : Nat) : Nat :=
  if low < high then
    if (array[(low + high) / 2]?.getD .nil).isNil then bisect array low ((low + high) / 2)
    else bisect array ((low + high) / 2 + 1) high
  else low
termination_by high - low
decreasing_by all_goals omega

/-- The border of the sequence: a length after which the next entry is nil. It lies in the array if
    that ends in nil. -/
def length : Nat :=
  if t.array.back?.any (·.isNil) then bisect t.array 0 t.array.size
  else t.countOn t.array.size t.entries.length

/-- The first entry with a value. -/
def firstLive (entries : List (Key × Value)) : Option (Key × Value) :=
  entries.find? (!·.2.isNil)

/-- The first position of an array, from `n` on, with a value. -/
def liveIndex? (array : Array Value) (n : Nat) : Option Nat :=
  if h : n < array.size then
    if array[n].isNil then liveIndex? array (n + 1) else some n
  else none
termination_by array.size - n

/-- The first value in the array at position `n` or after it, else the first entry. -/
def nextFrom (n : Nat) : Option (Key × Value) :=
  match liveIndex? t.array n with
  | some k => some (.integer (k + 1 : Nat), t.array[k]?.getD .nil)
  | none => firstLive t.entries

/-- The entry after a key in traversal order. The outer `none` means that the key is not in the
    table, the inner one that the traversal has ended. -/
def next : Option Key → Option (Option (Key × Value))
  | none => some (t.nextFrom 0)
  | some key =>
      let position := match key with
        | .integer i => t.arrayIndex? i
        | _ => none
      match position with
      | some n => some (t.nextFrom (n + 1))
      | none =>
          match t.entries.dropWhile (·.1 ≠ key) with
          | [] => none
          | _ :: rest => some (firstLive rest)

/-- The values of an array under their keys. -/
def arrayEntries (array : Array Value) : List (Key × Value) :=
  array.toList.zipIdx.map fun e => (.integer (e.2 + 1 : Nat), e.1)

/-- The entries that are not nil, in traversal order. -/
def toList : List (Key × Value) := (arrayEntries t.array ++ t.entries).filter (!·.2.isNil)

/-- The values that the table keeps alive: array, entries, and object keys that have a value. -/
def references : List Value :=
  t.array.toList ++ t.entries.map (·.2) ++
    t.entries.filterMap fun
      | (.object r, v) => if v.isNil then none else some (.object r)
      | (.foreign w, v) => if v.isNil then none else some (.foreign w)
      | _ => none

/-- The sizes of the two parts. -/
def describe : String :=
  s!"table(array={t.array.size}, hash={t.entries.length})"

end Table

end ScriptHost
