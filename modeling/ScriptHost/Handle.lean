import ScriptHost.Class
import ScriptHost.Counted

/-! # Handles

Typed access to the native object behind a value. An instance of the class of a bound type holds the
object in its block, an instance of its boxed class holds a pointer to it, and any other userdata or
light handle is taken to address it. The object is what the bytes at the address say, so a counted
object keeps its count there too. The stock hooks construct and finalize instances.
-/

namespace ScriptHost

namespace Counted

/-- Bytes of each of the two fields. -/
def fieldSize : Nat := 8

/-- The bytes of an object: its value and then its count. -/
def toBytes (c : Counted) : Bytes :=
  bytesOfInt fieldSize c.value ++ Bytes.ofNat c.count fieldSize

/-- The object that bytes hold. -/
def ofBytes (bytes : Bytes) : Counted :=
  { value := signedOf fieldSize (Bytes.toNat (bytes.take fieldSize))
    count := Bytes.toNat (bytes.drop fieldSize) }

end Counted

namespace Machine

variable (m : Machine)

def readBytes (a : Address) (count : Nat) : Bytes := m.heap.memory.read a count

def writeBytes (a : Address) (bytes : Bytes) : Machine :=
  { m with heap := { m.heap with memory := m.heap.memory.write a bytes } }

/-- A new block of the host. -/
def allocate (owner : BlockOwner) (bytes : Array UInt8) : Address × Machine :=
  let (a, memory) := m.heap.memory.allocate owner bytes
  (a, { m with heap := { m.heap with memory } })

/-- A new counted object that nobody holds yet. -/
def newCounted (owner : BlockOwner) (value : Int) : Address × Machine :=
  m.allocate owner (Counted.toBytes { value }).toArray

def counted (a : Address) : Counted := .ofBytes (m.readBytes a BoundType.shared.size)

def storeCounted (a : Address) (c : Counted) : Machine := m.writeBytes a c.toBytes

/-- The counted object at an address, unless it was destroyed. -/
def counted? (a : Address) : Option Counted :=
  if m.destroyed.contains a then none else some (m.counted a)

/-- Records that a native value was dropped. -/
def recordDrop (t : BoundType) (value : Int) : Machine :=
  { m with journal := .dropped t value :: m.journal }

/-- Takes a reference to the counted object at an address. -/
def retain (a : Address) : Machine := m.storeCounted a (m.counted a).retained

/-- Gives up a reference to the counted object at an address, which is destroyed when none is
    left. -/
def release (a : Address) : Machine :=
  let c := (m.counted a).released
  let m := m.storeCounted a c
  if c.count = 0 then { m with destroyed := a :: m.destroyed }.recordDrop .shared c.value else m

end Machine

/-- Two coordinates. -/
structure Vec2 where
  x : Double
  y : Double
  deriving DecidableEq, Repr, Inhabited

namespace Vec2

def toBytes (v : Vec2) : Bytes :=
  Bytes.ofNat v.x.bits.toNat 8 ++ Bytes.ofNat v.y.bits.toNat 8

def ofBytes (bytes : Bytes) : Vec2 :=
  ⟨⟨UInt64.ofNat (Bytes.toNat (bytes.take 8))⟩, ⟨UInt64.ofNat (Bytes.toNat (bytes.drop 8))⟩⟩

end Vec2

/-- The identity that a tracked value has by default. -/
def defaultTracked : Int := 7

def trackedBytes (id : Int) : Bytes := bytesOfInt BoundType.tracked.size id

def trackedOf (bytes : Bytes) : Int := signedOf BoundType.tracked.size (Bytes.toNat bytes)

namespace Op

/-- The address of the block or handle at an index. -/
def blockAt (i : StackIndex) : Op ScriptError Address := do
  let m ← get
  match m.address? (m.value i), i with
  | some a, _ => pure a
  | none, .fromBottom n => failArgument n ValueKind.userdata.name
  | none, i => fail (.handleExpected (m.describe (m.value i)))

/-- The pointer that the boxed instance at an index holds; zero is none. -/
def boxTarget (i : StackIndex) : Op ScriptError Address := do
  let block ← blockAt i
  pure ((← get).heap.memory.readPointer block)

/-- Stores a pointer in the boxed instance at an index. -/
def setBoxTarget (i : StackIndex) (target : Address) : Op ScriptError Unit := do
  let block ← blockAt i
  modify (·.writeBytes block (Bytes.ofNat target Memory.pointerSize))

/-- Stores a pointer to a counted object, zero for none, in the boxed instance at an index. The
    new target is retained; with `replacing` the old one is released after that. -/
def setSharedTarget (i : StackIndex) (target : Address) (replacing : Bool) :
    Op ScriptError Unit := do
  let old ← boxTarget i
  if target ≠ 0 then modify (·.retain target)
  if replacing && old ≠ 0 then modify (·.release old)
  setBoxTarget i target

/-- Refuses types that need more alignment than blocks have. -/
def checkAlignment (t : BoundType) : Op ScriptError Unit :=
  if Memory.alignment < t.alignment then fail (.overaligned t.alignment Memory.alignment)
  else pure ()

end Op

namespace Act

/-- The position of an index as messages give it. -/
def positionText : StackIndex → String
  | .fromBottom n => n.repr
  | i => i.describe

/-- The address of the object of a bound type behind the value at an index. -/
def objectAt (t : BoundType) (i : StackIndex) : Act ScriptError Address := do
  let i := (← get).absolute i
  if ← isInstance i then
    if ← isType i t.boxedName then
      let target ← Op.boxTarget i
      if target = 0 then fail (.handleIsNull t.boxedName) else pure target
    else if ← isType i t.typeName then Op.blockAt i
    else fail (.handleOfOtherClass (positionText i) t.typeName t.boxedName)
  else Op.blockAt i

/-- The same, or nothing if the value is nil or absent. -/
def objectOrNil (t : BoundType) (i : StackIndex) : Act ScriptError (Option Address) := do
  let m ← get
  let i := m.absolute i
  if (m.value i).isNil then pure none else pure (some (← objectAt t i))

/-- Points the boxed instance at an index to the object behind another value. -/
def setBoxFrom (t : BoundType) (i source : StackIndex) : Act ScriptError Unit := do
  let i := (← get).absolute i
  Op.setBoxTarget i (← objectAt t source)

/-- Points the boxed instance at an index to the counted object behind another value, or nowhere
    if that is nil. -/
def setSharedFrom (i source : StackIndex) (replacing : Bool) : Act ScriptError Unit := do
  let i := (← get).absolute i
  let target ← objectOrNil .shared source
  Op.setSharedTarget i (target.getD 0) replacing

/-- Pushes a new instance that holds a copy of a vector. -/
def copyVector (v : Vec2) : Act ScriptError Unit := do
  let a ← modifyGet (·.allocate .anonymous v.toBytes.toArray)
  newInstance BoundType.vec2.typeName [.light] [.pointer a]

/-- Fills the handle at a position of the frame with a vector, or pushes a copy if nothing is
    there. With `cut` the frame ends at the filled handle. One value is the result. -/
def fillOrCopy (n : Nat) (v : Vec2) (cut : Bool) : Act ScriptError Nat := do
  let i := StackIndex.fromBottom n
  if ((← get).value i).isNil then copyVector v
  else
    let target ← objectAt .vec2 i
    modify (·.writeBytes target v.toBytes)
    if cut then modify (·.setTop n)
  pure 1

def runHook (h : Hook) : Act ScriptError Nat := do
  let self := StackIndex.fromBottom 1
  let source := StackIndex.fromBottom 2
  match h with
  | .copyValue t =>
      Op.checkAlignment t
      let a ← objectAt t source
      let block ← Op.blockAt self
      modify fun m => m.writeBytes block (m.readBytes a t.size)
  | .borrow t => setBoxFrom t self source
  | .adoptFresh =>
      let fresh ← modifyGet (·.newCounted .anonymous 0)
      Op.setSharedTarget self fresh false
  | .shareTarget =>
      let target ← Op.boxTarget source
      Op.setSharedTarget self target false
  | .retainSource =>
      let target ← objectAt .shared source
      Op.setSharedTarget self target false
  | .retainSourceOrNull => setSharedFrom self source false
  | .releaseTarget => Op.setSharedTarget self 0 true
  | .dropValue t =>
      let block ← Op.blockAt self
      if t = .tracked then
        modify fun m => m.recordDrop .tracked (trackedOf (m.readBytes block t.size))
  pure 0

/-- Makes a block for a bound type that the registry keeps alive and whose finalizer drops the
    value in it; its address. -/
def anchorBlock (t : BoundType) : Act ScriptError Address := do
  Op.checkAlignment t
  let block ← newUserdata t.size
  newTable
  pushNative (.hook (.dropValue t))
  setField (.fromTop 2) Metafield.finalizer.text
  Op.setMetatable (.fromTop 2)
  Op.pushLight block
  Op.insert (.fromTop 2)
  Op.rawSet .registry
  pure block

/-- Gives up the registry's hold on an anchored block. -/
def releaseAnchor (block : Address) : Act ScriptError Unit := do
  Op.pushLight block
  modify (·.push .nil)
  Op.rawSet .registry

end Act

end ScriptHost
