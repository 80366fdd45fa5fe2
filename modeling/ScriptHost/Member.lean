import ScriptHost.Number.Power

/-! # Members

Where a named field lives inside a native block and how its bytes are read.
-/

namespace ScriptHost

/-- The native representation of a field. -/
inductive MemberTag where
  | pointer
  | signedChar
  | signedShort
  | signedLong
  | signedInt
  | unsignedChar
  | unsignedShort
  | unsignedLong
  | unsignedInt
  /-- A pointer to NUL-terminated bytes. -/
  | text
  | boolean
  | single
  | double
  deriving DecidableEq, Repr, Inhabited

namespace MemberTag

/-- The tags in the order of their numbers. -/
def all : List MemberTag :=
  [.pointer, .signedChar, .signedShort, .signedLong, .signedInt, .unsignedChar, .unsignedShort,
    .unsignedLong, .unsignedInt, .text, .boolean, .single, .double]

/-- The width of a field in bytes. -/
def size : MemberTag → Nat
  | .pointer | .text | .signedLong | .unsignedLong | .double => 8
  | .signedInt | .unsignedInt | .single => 4
  | .signedShort | .unsignedShort => 2
  | .signedChar | .unsignedChar | .boolean => 1

/-- The tag of a number of one byte. -/
def ofNumber? (n : UInt8) : Option MemberTag := all[n.toNat]?

/-- The number of a tag. -/
def number (tag : MemberTag) : Nat := all.idxOf tag

end MemberTag

/-- Why a member is refused. -/
inductive MemberError where
  | unknownTag (number : UInt8)
  | duplicate (name : String)
  deriving DecidableEq, Repr

def MemberError.message : MemberError → String
  | .unknownTag number => s!"unknown member type tag {number.toNat}"
  | .duplicate name => s!"member '{name}' is described twice"

/-- A named field at an offset. -/
structure Member where
  name : String
  offset : Nat
  tag : MemberTag
  deriving DecidableEq, Repr, Inhabited

namespace Member

/-- A member with its tag given by number. -/
def ofNumber (name : String) (offset : Nat) (tag : UInt8) : Except MemberError Member :=
  match MemberTag.ofNumber? tag with
  | some tag => .ok { name, offset, tag }
  | none => .error (.unknownTag tag)

/-- One past the last byte of the field, as a 64-bit number. -/
def stop (m : Member) : Nat := (m.offset + m.tag.size) % 2 ^ 64

end Member

/-- The members of a native type in the order of their insertion. -/
structure MemberTable where
  members : List Member := []
  /-- The smallest block size that holds every member. -/
  extent : Nat := 0
  deriving DecidableEq, Repr, Inhabited

namespace MemberTable

variable (t : MemberTable)

def get? (name : String) : Option Member := t.members.find? (·.name == name)

def insert (m : Member) : Except MemberError MemberTable :=
  if (t.get? m.name).isSome then .error (.duplicate m.name)
  else .ok { members := t.members ++ [m], extent := max t.extent m.stop }

def ofList (members : List Member) : Except MemberError MemberTable :=
  members.foldlM insert {}

/-- The table of members whose tags are given by number. -/
def ofNumbers (members : List (String × Nat × UInt8)) : Except MemberError MemberTable := do
  ofList (← members.mapM fun (name, offset, tag) => Member.ofNumber name offset tag)

end MemberTable

end ScriptHost
