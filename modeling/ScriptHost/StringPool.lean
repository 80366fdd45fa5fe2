import Std.Data.HashMap
import ScriptHost.Text.Utf8
import ScriptHost.Value

/-! # Interned strings

Every string is stored once and known by its number. Numbers are given out in order and never
taken back. The pool finds a string among those of the same hash.
-/

namespace ScriptHost

namespace Bytes

/-- One step of the string hash. -/
def mixHash (h : UInt32) (b : UInt8) : UInt32 :=
  h ^^^ ((h <<< 5) + (h >>> 2) + b.toUInt32)

/-- The string hash: mixes the bytes from the last one on. A string of `n` bytes is sampled at
    even steps of `n / 32 + 1`. -/
def hash (bytes : Bytes) : UInt32 :=
  let array := bytes.toArray
  let step := array.size / 32 + 1
  (List.range (array.size / step)).foldl
    (fun h k => mixHash h (array.getD (array.size - 1 - k * step) 0)) (UInt32.ofNat array.size)

end Bytes

/-- The strings of a machine. -/
structure StringPool where
  /-- The strings by number. -/
  strings : Array Bytes := #[]
  /-- The numbers of the strings of each hash, oldest first. -/
  buckets : Std.HashMap UInt32 (List StringId) := {}

instance : Inhabited StringPool := ⟨{}⟩

namespace StringPool

variable (p : StringPool)

def size : Nat := p.strings.size

def isEmpty : Bool := p.size == 0

def get (id : StringId) : Bytes := p.strings[id]?.getD []

/-- The number of a string that is present. -/
def find? (bytes : Bytes) : Option StringId :=
  (p.buckets.getD bytes.hash []).find? fun id => p.strings[id]? == some bytes

/-- The number of a string, which is added if it is new. -/
def intern (bytes : Bytes) : StringId × StringPool :=
  match p.find? bytes with
  | some id => (id, p)
  | none =>
      let h := bytes.hash
      let id := p.size
      (id, { strings := p.strings.push bytes
             buckets := p.buckets.insert h (p.buckets.getD h [] ++ [id]) })

def describe : String := "StringInterner \x7b len: " ++ p.size.repr ++ " \x7d"

/-- Diagnostic text of a string: quoted without escapes if it is text. -/
def describeString (id : StringId) : String :=
  let bytes := p.get id
  match Utf8.decode? bytes with
  | some text => "\"" ++ text ++ "\""
  | none => "<binary string len=" ++ bytes.length.repr ++ ">"

end StringPool

end ScriptHost
