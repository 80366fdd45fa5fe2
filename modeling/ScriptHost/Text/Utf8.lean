/-! # UTF-8

Byte strings read as text. Strict reading refuses ill-formed bytes; lossy reading puts one
replacement character for each longest piece that starts a character without ending it.
-/

namespace ScriptHost

/-- The contents of a string: any bytes at all. -/
abbrev Bytes := List UInt8

namespace Utf8

/-- The character that stands for ill-formed bytes. -/
def replacement : Char := '\uFFFD'

/-- Whether a byte continues a character. -/
def isTail (b : UInt8) : Bool := 0x80 ≤ b && b ≤ 0xBF

/-- The bytes that may come second after the first byte of a character of three or four bytes. -/
def secondRange (lead : UInt8) : UInt8 × UInt8 :=
  if lead = 0xE0 then (0xA0, 0xBF)
  else if lead = 0xED then (0x80, 0x9F)
  else if lead = 0xF0 then (0x90, 0xBF)
  else if lead = 0xF4 then (0x80, 0x8F)
  else (0x80, 0xBF)

/-- Whether `b` may come second after `lead`. -/
def isSecond (lead b : UInt8) : Bool :=
  let range := secondRange lead
  range.1 ≤ b && b ≤ range.2

/-- The character with the payload bits of a lead byte and its tails. -/
def assemble (lead : Nat) (tails : List UInt8) : Char :=
  Char.ofNat (tails.foldl (fun code b => code * 64 + b.toNat % 64) lead)

/-- The character that starts with the byte `lead`, at least `0x80`, and the number of bytes after
    `lead` that it takes. Where the bytes are ill-formed it is the replacement character, and takes
    what starts a character. -/
def multibyte (lead : UInt8) (rest : Bytes) : Char × Nat :=
  if 0xC2 ≤ lead && lead ≤ 0xDF then
    match rest with
    | b :: _ => if isTail b then (assemble (lead.toNat % 32) [b], 1) else (replacement, 0)
    | [] => (replacement, 0)
  else if 0xE0 ≤ lead && lead ≤ 0xEF then
    match rest with
    | b :: c :: _ =>
        if isSecond lead b then
          if isTail c then (assemble (lead.toNat % 16) [b, c], 2) else (replacement, 1)
        else (replacement, 0)
    | [b] => (replacement, if isSecond lead b then 1 else 0)
    | [] => (replacement, 0)
  else if 0xF0 ≤ lead && lead ≤ 0xF4 then
    match rest with
    | b :: c :: d :: _ =>
        if isSecond lead b then
          if isTail c then
            if isTail d then (assemble (lead.toNat % 8) [b, c, d], 3) else (replacement, 2)
          else (replacement, 1)
        else (replacement, 0)
    | [b, c] => (replacement, if isSecond lead b then (if isTail c then 2 else 1) else 0)
    | [b] => (replacement, if isSecond lead b then 1 else 0)
    | [] => (replacement, 0)
  else (replacement, 0)

/-- The characters of bytes, with one replacement character for each ill-formed piece. -/
def chars : Bytes → List Char
  | [] => []
  | lead :: rest =>
      if lead < 0x80 then Char.ofNat lead.toNat :: chars rest
      else
        let c := multibyte lead rest
        c.1 :: chars (rest.drop c.2)
termination_by bytes => bytes.length
decreasing_by
  · rw [List.length_cons]
    omega
  · rw [List.length_drop, List.length_cons]
    omega

/-- Text with replacement characters where the bytes are ill-formed. -/
def decodeLossy (bytes : Bytes) : String := String.ofList (chars bytes)

def encode (text : String) : Bytes := text.toUTF8.toList

/-- Text of well-formed bytes only: those that are the bytes of the text that they read as. -/
def decode? (bytes : Bytes) : Option String :=
  let text := decodeLossy bytes
  if encode text = bytes then some text else none

end Utf8

/-- The part of a byte string that a reader of NUL-terminated strings sees. -/
def Bytes.untilNul (bytes : Bytes) : Bytes := bytes.takeWhile (· != 0)

end ScriptHost
