import ScriptHost.Table.Key

/-! # Values and words

Every value has a word and every word a value. Reading the word of a value gives the value back as
long as NaNs are canonical, integers fit inline, addresses lie below the bound of light handles and
slots take 32 bits.
-/

namespace ScriptHost

namespace Word

def encode : Value → Word
  | .nil => make 1 0
  | .bool b => make 2 b.toNat
  | .float d => ⟨d.bits⟩
  | .int i => make 3 (i % 2 ^ 47).toNat
  | .string id => makeObject stringTag id
  | .light a => make 5 a
  | .object r => makeObject r.kind.subTag r.slot
  | .foreign w => w

/-- The word of an integer that fits inline. -/
def ofInline? (i : Int) : Option Word :=
  if Value.fitsInline i then some (encode (.int i)) else none

def decode (w : Word) : Value :=
  match w.kind with
  | .float => .float ⟨w.bits⟩
  | .nil => .nil
  | .bool => .bool (w.bool?.getD false)
  | .int => .int (w.int?.getD 0)
  | .light => .light w.payload
  | .object subTag =>
      if subTag = stringTag then .string w.slot
      else if w = makeObject subTag w.slot then
        match Ref.ofWord? w with
        | some r => .object r
        | none => .foreign w
      else .foreign w

/-- The type of the value that a word holds. -/
def valueKind (w : Word) : ValueKind := w.decode.kind

def key? (w : Word) : Option Key := Key.ofValue? w.decode

end Word

/-- The word that names a key, or the integer that has to be boxed for it. -/
def Key.toWord (k : Key) : Except Int Word := k.toValue.map Word.encode

end ScriptHost
