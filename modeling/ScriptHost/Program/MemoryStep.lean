import ScriptHost.Program.Term
import ScriptHost.Snapshot

/-! # Memory steps

Steps that work on native memory and on the native objects behind handles.
-/

namespace ScriptHost

open Act (silently)

/-- Where a step works on memory. -/
inductive Location where
  /-- A named block. -/
  | block (a : AddressTerm)
  /-- The block of the handle at an index. -/
  | handle (i : StackIndex)
  deriving DecidableEq, Repr, Inhabited

def Location.resolve : Location → Op ScriptError Address
  | .block a => do pure (a.resolve (← get))
  | .handle i => Op.blockAt i

/-- A step that works on native memory. -/
inductive MemoryStep where
  /-- Makes a named block of zeros. -/
  | allocate (name : String) (size : Nat)
  /-- Makes a named counted object that nobody holds yet. -/
  | shared (name : String) (value : Int)
  | sharedInfo (a : AddressTerm)
  | peek (l : Location) (offset count : Nat)
  | poke (l : Location) (offset : Nat) (bytes : Bytes)
  /-- Stores a pointer. -/
  | link (l : Location) (offset : Nat) (target : AddressTerm)
  /-- Pushes a signed integer of 32 bits. -/
  | load (l : Location) (offset : Nat)
  /-- Stores an argument as a signed integer of 32 bits. -/
  | store (l : Location) (offset n : Nat)
  deriving Repr, Inhabited

namespace MemoryStep

/-- Bytes of the integers that are loaded and stored. -/
def integerWidth : Nat := 4

def run : MemoryStep → Op ScriptError Reply
  | .allocate name size => do
      let _ ← modifyGet (·.allocate (.host name) (Array.replicate size 0))
      pure .nothing
  | .shared name value => do
      let _ ← modifyGet (·.newCounted (.host name) value)
      pure .nothing
  | .sharedInfo a => do
      let m ← get
      match m.counted? (a.resolve m) with
      | some c => pure (.counted c.value c.count)
      | none => pure .destroyed
  | .peek l offset count => do
      let a ← l.resolve
      pure (.hex ((← get).readBytes (a + offset) count))
  | .poke l offset bytes => do
      let a ← l.resolve
      modify (·.writeBytes (a + offset) bytes)
      pure .nothing
  | .link l offset target => do
      let a ← l.resolve
      modify fun m =>
        m.writeBytes (a + offset) (Bytes.ofNat (target.resolve m) Memory.pointerSize)
      pure .nothing
  | .load l offset => do
      let a ← l.resolve
      modify fun m =>
        m.pushInt (signedOf integerWidth (Bytes.toNat (m.readBytes (a + offset) integerWidth)))
      pure .nothing
  | .store l offset n => do
      let i ← Op.checkInt n
      let a ← l.resolve
      modify (·.writeBytes (a + offset) (bytesOfInt integerWidth i))
      pure .nothing

end MemoryStep

/-- A step that reaches the native object behind a handle. -/
inductive HandleStep where
  /-- The vector behind a value. -/
  | vector (i : StackIndex)
  | vectorOrNil (i : StackIndex)
  /-- The counted object behind a value. -/
  | counted (i : StackIndex)
  | setCounted (i : StackIndex) (value : Int)
  /-- The target of a boxed instance. -/
  | target (i : StackIndex)
  | countedTarget (i : StackIndex)
  | setTarget (i : StackIndex) (a : AddressTerm)
  | setTargetFrom (i source : StackIndex)
  | setCountedTarget (i : StackIndex) (a : AddressTerm) (replacing : Bool)
  | setCountedTargetFrom (i source : StackIndex) (replacing : Bool)
  /-- Pushes a new instance that holds a vector. -/
  | copy (v : Vec2)
  | fillOrCopy (n : Nat) (v : Vec2) (cut : Bool)
  /-- Makes a tracked value in a block that the registry keeps alive, gives it an identity, and
      answers the one it had before: the default one, or zero in a raw block. -/
  | anchor (name : String) (t : BoundType) (raw : Bool) (identity : Int)
  /-- Gives up the registry's hold on a block. -/
  | release (name : String)
  deriving Repr, Inhabited

namespace HandleStep

def vectorAt (m : Machine) (a : Address) : Reply :=
  let inside : Bool := match m.heap.memory.blockAt? a with
    | some b => a + BoundType.vec2.size ≤ b.base + b.bytes.size
    | none => false
  let v := Vec2.ofBytes (m.readBytes a BoundType.vec2.size)
  .vector (m.place a) (if inside then some (v.x, v.y) else none)

def countedAt (m : Machine) (a : Address) : Reply :=
  let c := m.counted a
  .counted c.value c.count

def run : HandleStep → Act ScriptError Reply
  | .vector i => do
      let a ← Act.objectAt .vec2 i
      pure (vectorAt (← get) a)
  | .vectorOrNil i => do
      match ← Act.objectOrNil .vec2 i with
      | some a => pure (vectorAt (← get) a)
      | none => pure .absent
  | .counted i => do
      let a ← Act.objectAt .shared i
      pure (countedAt (← get) a)
  | .setCounted i value => do
      let a ← Act.objectAt .shared i
      modify fun m => m.storeCounted a { m.counted a with value }
      pure .nothing
  | .target i => do
      let a ← Op.boxTarget i
      if a = 0 then pure .absent else pure (.place ((← get).place a))
  | .countedTarget i => do
      let a ← Op.boxTarget i
      if a = 0 then pure .absent else pure (countedAt (← get) a)
  | .setTarget i a => silently do Op.setBoxTarget i (a.resolve (← get))
  | .setTargetFrom i source => silently (Act.setBoxFrom .vec2 i source)
  | .setCountedTarget i a replacing => silently do
      Op.setSharedTarget i (a.resolve (← get)) replacing
  | .setCountedTargetFrom i source replacing => silently (Act.setSharedFrom i source replacing)
  | .copy v => silently (Act.copyVector v)
  | .fillOrCopy n v cut => do pure (.int (← Act.fillOrCopy n v cut))
  | .anchor name t raw identity => do
      let a ← Act.anchorBlock t
      modify fun m =>
        { m.writeBytes a (trackedBytes identity) with
          names.anchored := (name, a) :: m.names.anchored }
      pure (.int (if raw then 0 else defaultTracked))
  | .release name => silently do
      Act.releaseAnchor (((← get).names.anchored.lookup name).getD 0)

end HandleStep

end ScriptHost
