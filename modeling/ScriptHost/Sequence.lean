import ScriptHost.Machine.RawTable

/-! # Sequences

Tables used as stacks on the keys from 1 to their border.
-/

namespace ScriptHost

namespace Machine

/-- The border of the table at an index; the length of any other value. -/
def lengthAt (m : Machine) (i : StackIndex) : Nat := m.rawLength (m.value i)

end Machine

namespace Op

/-- Pops a value and appends it to the table at an index. -/
def append (i : StackIndex) : Op ScriptError Unit := do
  let m ← get
  let i := m.absolute i
  rawSetInt i (m.lengthAt i + 1)

/-- Removes the last element of the table at an index, and pushes it if it is to be kept. -/
def removeLast (i : StackIndex) (keep : Bool) : Op ScriptError Unit := do
  let m ← get
  let i := m.absolute i
  let n := m.lengthAt i
  if keep then
    let _ ← rawGetInt i n
  modify (·.push .nil)
  rawSetInt i n

/-- Pushes the last element of the table at an index. -/
def last (i : StackIndex) : Op ScriptError ValueKind := do
  let m ← get
  let i := m.absolute i
  rawGetInt i (m.lengthAt i)

/-- Pushes so many entries of a table, from an integer key on. -/
def pushEntries (i : StackIndex) (key : Int) : Nat → Op ScriptError Unit
  | 0 => pure ()
  | count + 1 => do
      let _ ← rawGetInt i key
      pushEntries i (key + 1) count

/-- A bound of a range: a negative one counts back from the end of `count` elements. -/
def resolveBound (count : Nat) (i : Int) : Int :=
  if i < 0 then wrapInt64 (count + i + 1) else i

/-- Pushes the entries from one key to another of the table at an index, and gives their number.
    Negative keys count back from the border. -/
def unpack (i : StackIndex) (first final : Int) : Op ScriptError Nat := do
  let m ← get
  let i := m.absolute i
  let count := m.lengthAt i
  let first := resolveBound count first
  let final := resolveBound count final
  if final < first then pure 0
  else
    let width := ((final - first + 1) % 2 ^ 64).toNat
    if !m.hasRoom width then throw .stackOverflow
    pushEntries i first (final - first + 1).toNat
    pure width

end Op

end ScriptHost
