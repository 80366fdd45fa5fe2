import ScriptHost.Number.Text

/-! # Words

A value fits in 64 bits. A double is stored as itself; everything else lies among the quiet NaNs,
where a three-bit tag says what the 47-bit payload holds:

* tag 0: the canonical NaN,
* tag 1: nil,
* tag 2: a boolean in the lowest bit,
* tag 3: a signed 47-bit integer,
* tag 4: a heap object, three bits of sub-tag above 44 bits of which the lower 32 are the slot,
* tag 5 and above: the address of a light handle.

The sign bit and the bit between tag and payload carry nothing.
-/

namespace ScriptHost

/-- A 64-bit word read as a value. -/
structure Word where
  bits : UInt64
  deriving DecidableEq, Repr, Inhabited

namespace Word

/-- What kind of value a word holds. -/
inductive Kind where
  | float
  | nil
  | bool
  | int
  /-- A heap object or string; the number is its sub-tag. -/
  | object (subTag : Nat)
  | light
  deriving DecidableEq, Repr

/-- Bits 51 to 62 are set in a quiet NaN. -/
def isQuietNaN (w : Word) : Bool := w.bits.toNat / 2 ^ 51 % 2 ^ 12 == 2 ^ 12 - 1

def tag (w : Word) : Nat := w.bits.toNat / 2 ^ 48 % 8

def payload (w : Word) : Nat := w.bits.toNat % 2 ^ 47

def kind (w : Word) : Kind :=
  if w.isQuietNaN then
    match w.tag with
    | 0 => .float
    | 1 => .nil
    | 2 => .bool
    | 3 => .int
    | 4 => .object (w.payload / 2 ^ 44)
    | _ => .light
  else .float

/-! ## Making words -/

/-- The sub-tags of heap words. -/
def tableTag : Nat := 0
def functionTag : Nat := 1
def userdataTag : Nat := 2
def boxedTag : Nat := 3
def stringTag : Nat := 4

/-- A quiet NaN with a tag and a payload. -/
def make (tag payload : Nat) : Word :=
  ⟨UInt64.ofNat (0x7FF8 * 2 ^ 48 + tag * 2 ^ 48 + payload)⟩

def makeObject (subTag slot : Nat) : Word := make 4 (subTag * 2 ^ 44 + slot)

/-! ## Reading words -/

def float? (w : Word) : Option Double := if w.kind = .float then some ⟨w.bits⟩ else none

def bool? (w : Word) : Option Bool :=
  if w.kind = .bool then some (w.bits.toNat % 2 == 1) else none

/-- The integer stored inline; the top payload bit is its sign. -/
def int? (w : Word) : Option Int :=
  if w.kind = .int then
    some (if w.payload < 2 ^ 46 then (w.payload : Int) else (w.payload : Int) - 2 ^ 47)
  else none

def light? (w : Word) : Option Nat := if w.kind = .light then some w.payload else none

def subTag? (w : Word) : Option Nat :=
  match w.kind with
  | .object subTag => some subTag
  | _ => none

/-- The part of the payload that is a slot. -/
def slot (w : Word) : Nat := w.payload % 2 ^ 32

/-- The slot of a heap object, or the number of a string. -/
def slot? (w : Word) : Option Nat := w.subTag?.map fun _ => w.slot

def isNumber (w : Word) : Bool :=
  w.kind == .float || w.kind == .int || w.kind == .object boxedTag

def isFalsy (w : Word) : Bool := w.kind == .nil || w.bool? == some false

/-- Equality of words: doubles by number, all else by bits. -/
def same (a b : Word) : Bool :=
  match a.float?, b.float? with
  | some x, some y => x.sameNumber y
  | _, _ => a.bits == b.bits

/-! ## Diagnostics -/

def subTagName : Nat → String
  | 0 => "table"
  | 1 => "native"
  | 2 => "userdata"
  | 3 => "boxedint"
  | 4 => "string"
  | _ => "gc"

def hex (n : Nat) : String := String.ofList (Nat.toDigits 16 n)

/-- Diagnostic text of a word; of a heap word it shows all bits below the sub-tag. -/
def describe (w : Word) : String :=
  match w.kind with
  | .nil => "nil"
  | .bool => if w.bool? = some true then "true" else "false"
  | .int => (w.int?.getD 0).repr
  | .float => (Double.mk w.bits).plain
  | .light => "light(0x" ++ hex w.payload ++ ")"
  | .object subTag => subTagName subTag ++ "(#" ++ (w.payload % 2 ^ 44).repr ++ ")"

end Word

end ScriptHost
