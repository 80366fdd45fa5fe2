import ScriptHost.Text.Utf8
import ScriptHost.Value

/-! # Native memory

Blocks of bytes in one address space. Addresses are never given out twice, so an address tells its
block for as long as the block lives. Numbers are little-endian.
-/

namespace ScriptHost

/-- What a block is for. -/
inductive BlockOwner where
  /-- A block of the host, known by a name. -/
  | host (name : String)
  /-- A block of the host without a name. -/
  | anonymous
  /-- The block of a userdata. -/
  | userdata
  /-- The NUL-terminated bytes of an interned string. -/
  | literal (id : StringId)
  deriving DecidableEq, Repr, Inhabited

/-- A block of bytes at an address. -/
structure Block where
  base : Address
  owner : BlockOwner
  bytes : Array UInt8
  deriving Repr, Inhabited

namespace Block

/-- An empty block has an address of its own too. -/
def extent (b : Block) : Nat := max 1 b.bytes.size

def covers (b : Block) (a : Address) : Bool := b.base ≤ a && a < b.base + b.extent

end Block

/-- The blocks that are allocated. -/
structure Memory where
  /-- The blocks, newest first. -/
  blocks : List Block := []
  /-- Every block lies below this address; it is a multiple of 16. -/
  frontier : Address := 0x5A3C00000000
  deriving Repr, Inhabited

namespace Memory

def alignment : Nat := 16

variable (m : Memory)

/-- A new block at an address of its own. -/
def allocate (owner : BlockOwner) (bytes : Array UInt8) : Address × Memory :=
  let b : Block := { base := m.frontier, owner, bytes }
  let blocks := b.extent / alignment + 2
  (b.base, { blocks := b :: m.blocks, frontier := m.frontier + blocks * alignment })

def allocateZeroed (owner : BlockOwner) (size : Nat) : Address × Memory :=
  m.allocate owner (Array.replicate size 0)

/-- Gives up the blocks at some addresses. -/
def free (bases : List Address) : Memory :=
  if bases.isEmpty then m else { m with blocks := m.blocks.filter fun b => !bases.contains b.base }

def blockAt? (a : Address) : Option Block := m.blocks.find? (·.covers a)

/-- The block of the host with a name. -/
def named? (name : String) : Option Block := m.blocks.find? (·.owner == .host name)

/-- The bytes from an address on; what lies outside the block reads as zero. -/
def read (a : Address) (count : Nat) : Bytes :=
  match m.blockAt? a with
  | some b => (List.range count).map fun i => b.bytes[a - b.base + i]?.getD 0
  | none => List.replicate count 0

/-- Stores bytes in an array from a position on, up to its end. -/
def overwrite (bytes : Array UInt8) (position : Nat) : Bytes → Array UInt8
  | [] => bytes
  | x :: rest => overwrite (bytes.setIfInBounds position x) (position + 1) rest

/-- Stores bytes from an address on; what lies outside the block is left out. -/
def write (a : Address) (bytes : Bytes) : Memory :=
  match m.blockAt? a with
  | some b =>
      let updated := { b with bytes := overwrite b.bytes (a - b.base) bytes }
      { m with blocks := m.blocks.map fun x => if x.base = b.base then updated else x }
  | none => m

end Memory

namespace Bytes

/-- The number that little-endian bytes denote. -/
def toNat : Bytes → Nat
  | [] => 0
  | b :: rest => b.toNat + 256 * toNat rest

/-- The `width` low bytes of a number, little-endian. -/
def ofNat (n : Nat) : Nat → Bytes
  | 0 => []
  | width + 1 => UInt8.ofNat n :: ofNat (n / 256) width

end Bytes

namespace Memory

def pointerSize : Nat := 8

def readPointer (m : Memory) (a : Address) : Address := Bytes.toNat (m.read a pointerSize)

def writePointer (m : Memory) (a target : Address) : Memory :=
  m.write a (Bytes.ofNat target pointerSize)

/-- The NUL-terminated string at an address. -/
def readText (m : Memory) (a : Address) : Bytes :=
  match m.blockAt? a with
  | some b => Bytes.untilNul (b.bytes.toList.drop (a - b.base))
  | none => []

/-- The address of an interned string's bytes, which stay where they are once asked for. -/
def pin (m : Memory) (id : StringId) (bytes : Bytes) : Address × Memory :=
  match m.blocks.find? (·.owner == .literal id) with
  | some b => (b.base, m)
  | none => m.allocate (.literal id) (bytes ++ [0]).toArray

end Memory

end ScriptHost
