import ScriptHost.Machine.Check
import ScriptHost.Machine.Index

/-! # Native properties

Fields of native memory as entries of a handle. The handlers that a peer installs in a metatable
read and write the bytes of a member, unless a getter or setter of that name takes its place.
-/

namespace ScriptHost

/-- The signed number of `width` bytes with the same low bits. -/
def signedOf (width n : Nat) : Int := Int.bmod n (2 ^ (8 * width))

/-- The bytes of an integer cut to a width. -/
def bytesOfInt (width : Nat) (i : Int) : Bytes := Bytes.ofNat (i % 2 ^ (8 * width)).toNat width

namespace MemberTag

/-- The script value of a member's bytes, other than a text; `none` for an address that no light
    handle can hold. -/
def decode (tag : MemberTag) (bytes : Bytes) : Except Address (Int ⊕ Value) :=
  let n := Bytes.toNat bytes
  match tag with
  | .pointer =>
      match Value.light? n with
      | some v => .ok (.inr v)
      | none => .error n
  | .signedChar | .signedShort | .signedInt | .signedLong | .unsignedLong =>
      .ok (.inl (signedOf tag.size n))
  | .unsignedChar | .unsignedShort | .unsignedInt => .ok (.inl n)
  | .boolean => .ok (.inr (.bool (n ≠ 0)))
  | .single => .ok (.inr (.ofDouble (Double.ofSingle (UInt32.ofNat n))))
  | .double => .ok (.inr (.ofDouble ⟨UInt64.ofNat n⟩))
  | .text => .ok (.inr .nil)

end MemberTag

namespace Peer

variable (p : Peer)

/-- Bytes that the block of a full userdata needs. -/
def neededSize : Nat :=
  match p.addressing with
  | .inBlock => p.members.extent
  | .byPointer => Memory.pointerSize

/-- The address of the native object that an instance's block holds or points to. -/
def objectOf (block : Address) : Op ScriptError Address := do
  match p.addressing with
  | .inBlock => pure block
  | .byPointer =>
      let target := (← get).heap.memory.readPointer block
      if target = 0 then fail .boxIsNull else pure target

/-- The address of the native object behind argument 1. -/
def objectAddress : Op ScriptError Address := do
  let m ← get
  let handle := m.value (.argument 1)
  match m.address? handle with
  | none => Op.failArgument 1 "userdata"
  | some block =>
      match m.blockSize? handle with
      | some size => if size < p.neededSize then fail (.blockTooSmall size p.neededSize)
      | none => pure ()
      p.objectOf block

/-- The member name that the key at argument 2 is; only strings are names. -/
def keyName : Op ScriptError (Option String) := do
  let m ← get
  match m.value (.argument 2) with
  | .string id => pure (some (Utf8.decodeLossy (m.strings.get id)))
  | _ => pure none

end Peer

namespace Op

/-- The address of a member of an object. -/
def memberAddress (object : Address) (member : Member) : Address :=
  (object + member.offset) % 2 ^ 64

/-- Pushes the value of a member of the object at an address. -/
def readMember (object : Address) (member : Member) : Op ScriptError Unit := do
  let m ← get
  let memory := m.heap.memory
  let bytes := memory.read (memberAddress object member) member.tag.size
  if member.tag = .text then
    let target := Bytes.toNat bytes
    if target = 0 then modify (·.push .nil)
    else modify (·.pushBytes (memory.readText target))
  else
    match member.tag.decode bytes with
    | .ok (.inl i) => modify (·.pushInt i)
    | .ok (.inr v) => modify (·.push v)
    | .error a => fail (.addressTooLarge a)

/-- The address of an interned string's bytes. -/
def pin (id : StringId) : Op ScriptError Address := modifyGet fun m =>
  let (a, memory) := m.heap.memory.pin id (m.strings.get id)
  (a, { m with heap := { m.heap with memory } })

/-- The bytes that argument 3 has as the value of a member. -/
def memberBytes (tag : MemberTag) : Op ScriptError Bytes := do
  let argument := 3
  match tag with
  | .pointer => pure (Bytes.ofNat (← checkAddress argument) tag.size)
  | .signedChar | .signedShort | .signedInt | .signedLong | .unsignedChar | .unsignedShort
  | .unsignedInt | .unsignedLong => pure (bytesOfInt tag.size (← checkInt argument))
  | .boolean => pure (Bytes.ofNat (← checkBool argument).toNat tag.size)
  | .single => pure (Bytes.ofNat (← checkNumber argument).toSingle.toNat tag.size)
  | .double => pure (Bytes.ofNat (← checkNumber argument).bits.toNat tag.size)
  | .text =>
      if ((← get).value (.fromBottom argument)).isNil then pure (Bytes.ofNat 0 tag.size)
      else pure (Bytes.ofNat (← pin (← checkString argument)) tag.size)

/-- Stores argument 3 in a member of the object at an address. A text is stored as a pointer to
    its interned bytes. -/
def writeMember (object : Address) (member : Member) : Op ScriptError Unit := do
  let bytes ← memberBytes member.tag
  modify fun m =>
    let memory := m.heap.memory.write (memberAddress object member) bytes
    { m with heap := { m.heap with memory } }

end Op

namespace Act

/-- Reads the property that argument 2 names of the handle at argument 1. -/
def readProperty (p : Peer) : Act ScriptError Nat := do
  let object ← p.objectAddress
  match ← Peer.keyName with
  | none => modify (·.push .nil)
  | some name =>
      match p.getters.lookup name with
      | some getter =>
          pushNative getter
          modify fun m => (m.pushAt (.argument 1)).pushAt (.argument 2)
          Op.pushLight object
          call 3 1
      | none =>
          match p.members.get? name with
          | some member => Op.readMember object member
          | none => modify (·.push .nil)
  pure 1

/-- Assigns argument 3 to the property that argument 2 names of the handle at argument 1. -/
def writeProperty (p : Peer) : Act ScriptError Nat := do
  let object ← p.objectAddress
  match ← Peer.keyName with
  | none => pure ()
  | some name =>
      match p.setters.lookup name with
      | some setter =>
          pushNative setter
          modify fun m =>
            ((m.pushAt (.argument 1)).pushAt (.argument 2)).pushAt (.argument 3)
          Op.pushLight object
          call 4 0
      | none =>
          match p.members.get? name with
          | some member => Op.writeMember object member
          | none => pure ()
  pure 0

/-- Reads with the function in the first upvalue; what it leaves nil is read raw from the table in
    the second. -/
def readPropertyOrField : Act ScriptError Nat := do
  modify fun m =>
    ((m.pushAt (.upvalue 1)).pushAt (.argument 1)).pushAt (.argument 2)
  call 2 1
  if (← get).topValue.isNil then
    modify fun m => (m.pop 1).pushAt (.argument 2)
    let _ ← Op.rawGet (.upvalue 2)
  pure 1

/-- Pushes the reading and then the writing handler of a peer. -/
def bindPeer {ε : Type} (p : Peer) : Act ε Unit := do
  pushFunction (.readProperty p) 0 .host
  pushFunction (.writeProperty p) 0 .host

/-- Installs the handlers of a peer in the metatable at an index. -/
def installPeer (metatable : StackIndex) (p : Peer) : Act ScriptError Unit := do
  let m ← get
  let i := m.absolute metatable
  match m.value i with
  | .table _ => pure ()
  | v => fail (.noProperties (m.describe v))
  bindPeer p
  setField i Metafield.newindex.text
  modify (·.pushAt i)
  pushFunction .readPropertyOrField 2 .host
  setField i Metafield.index.text

end Act

end ScriptHost
