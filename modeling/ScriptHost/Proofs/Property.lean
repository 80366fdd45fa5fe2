import ScriptHost.Proofs.Lawful.Class
import ScriptHost.Proofs.Undisturbed

/-! # What properties hold

A member holds what was written to it as far as its type can hold it: integers are cut to its width, numbers
rounded to its precision, texts end at the first NUL. A value of another type is refused before any byte
changes.
-/

namespace ScriptHost

/-- What is read from a member. -/
inductive Content where
  | int (i : Int)
  | value (v : Value)
  | text (bytes : Bytes)

namespace MemberTag

def isSigned : MemberTag → Bool
  | .signedChar | .signedShort | .signedInt | .signedLong => true
  | _ => false

/-- The tags of integers. -/
def isIntegral : MemberTag → Bool
  | .unsignedChar | .unsignedShort | .unsignedInt | .unsignedLong => true
  | tag => tag.isSigned

/-- An integer in the range of a member's type, as a signed 64-bit integer. -/
def narrow (tag : MemberTag) (i : Int) : Int :=
  wrapInt64 (if tag.isSigned then Int.bmod i (2 ^ (8 * tag.size)) else i % 2 ^ (8 * tag.size))

end MemberTag

/-- What the bytes of a member mean; `none` for an address that no light handle can hold. -/
def Memory.content? (memory : Memory) (tag : MemberTag) (bytes : Bytes) : Option Content :=
  if tag = .text then
    if Bytes.toNat bytes = 0 then some (.value .nil) else some (.text (memory.readText (Bytes.toNat bytes)))
  else
    match tag.decode bytes with
    | .ok (.inl i) => some (.int i)
    | .ok (.inr v) => some (.value v)
    | .error _ => none

namespace Machine

/-- The bytes of a string, or of the text of a number. -/
def textBytes? (m : Machine) : Value → Option Bytes
  | .string id => some (m.strings.get id)
  | v => (m.numberText? v).map Utf8.encode

/-- What a member of a type holds once a value was written to it; `none` for a value of another type. -/
def assigned? (m : Machine) (v : Value) : MemberTag → Option Content
  | .pointer =>
      match v with
      | .light a => some (.value (.light a))
      | .userdata slot => (m.heap.userdata? slot).map fun u => .value (.light u.address)
      | _ => none
  | .boolean =>
      match v with
      | .bool b => some (.value (.bool b))
      | _ => none
  | .single => (m.toDouble? v).map fun d => .value (.ofDouble (.ofSingle d.toSingle))
  | .double => (m.toDouble? v).map fun d => .value (.ofDouble d)
  | .text => if v.isNil then some (.value .nil) else (m.textBytes? v).map fun bytes => .text (Bytes.untilNul bytes)
  | tag => (m.toInt? v).map fun i => .int (tag.narrow i)

/-- A value is what was read from a member. -/
def Reads (m : Machine) (v : Value) : Content → Prop
  | .int i => m.heap.toInt? v = some i
  | .value w => v = w
  | .text bytes => ∃ id, v = .string id ∧ m.strings.get id = bytes

end Machine

/-! ## The bytes of values -/

theorem toNat_bytesOfInt (width : Nat) (i : Int) :
    (Bytes.toNat (bytesOfInt width i) : Int) = i % 2 ^ (8 * width) := by
  have hpos : (0 : Int) < 2 ^ (8 * width) := Int.pow_pos (by decide)
  rw [bytesOfInt, Bytes.toNat_ofNat, Int.natCast_emod, Int.natCast_pow,
    Int.toNat_of_nonneg (Int.emod_nonneg i (Int.ne_of_gt hpos))]
  exact Int.emod_emod i _

theorem wrapInt64_eq {i : Int} (h : -2 ^ 63 ≤ i) (hlt : i < 2 ^ 63) : wrapInt64 i = i :=
  Int.bmod_eq_of_le (by omega) (by omega)

namespace MemberTag

variable {tag : MemberTag}

theorem size_pos (tag : MemberTag) : 0 < tag.size := by
  cases tag <;> decide

theorem signedOf_bytesOfInt (width : Nat) (i : Int) :
    signedOf width (Bytes.toNat (bytesOfInt width i)) = Int.bmod i (2 ^ (8 * width)) := by
  rw [signedOf, toNat_bytesOfInt]
  exact Int.emod_bmod i _

/-- An integer is read as it was narrowed. -/
theorem decode_bytesOfInt (h : tag.isIntegral = true) (i : Int) :
    tag.decode (bytesOfInt tag.size i) = .ok (.inl (tag.narrow i)) := by
  have hbytes := toNat_bytesOfInt tag.size i
  have hsigned := signedOf_bytesOfInt tag.size i
  cases tag with
  | pointer | boolean | single | double | text => cases h
  | signedChar | signedShort | signedInt | signedLong =>
      simp only [decode, hsigned, narrow, isSigned, if_true]
      rw [wrapInt64_eq]
      · exact Int.le_trans (by decide) (Int.le_bmod (by decide))
      · exact Int.lt_of_lt_of_le (Int.bmod_lt (by decide)) (by decide)
  | unsignedChar | unsignedShort | unsignedInt =>
      simp only [decode, hbytes, narrow, isSigned, Bool.false_eq_true, if_false]
      rw [wrapInt64_eq]
      · exact Int.le_trans (by decide) (Int.emod_nonneg i (by decide))
      · exact Int.lt_of_lt_of_le (Int.emod_lt_of_pos i (by decide)) (by decide)
  | unsignedLong =>
      simp only [decode, hsigned, narrow, isSigned, Bool.false_eq_true, if_false]
      rw [wrapInt64]
      exact congrArg (fun j => Except.ok (Sum.inl j)) (Int.emod_bmod i (2 ^ 64)).symm

end MemberTag

namespace Memory

variable {memory memory' : Memory} {tag : MemberTag} {bytes text : Bytes} {id : StringId}

theorem content?_bytesOfInt (h : tag.isIntegral = true) (i : Int) :
    memory.content? tag (bytesOfInt tag.size i) = some (.int (tag.narrow i)) := by
  have htext : tag ≠ .text := fun heq => by
    rw [heq] at h
    cases h
  rw [content?, if_neg htext, MemberTag.decode_bytesOfInt h]

theorem content?_double (d : Double) :
    memory.content? .double (Bytes.ofNat d.bits.toNat 8) = some (.value (.ofDouble d)) := by
  have hbits : Bytes.toNat (Bytes.ofNat d.bits.toNat 8) = d.bits.toNat :=
    Bytes.toNat_ofNat_of_lt d.bits.toNat_lt
  simp [content?, MemberTag.decode, hbits]

theorem content?_single (d : Double) :
    memory.content? .single (Bytes.ofNat d.toSingle.toNat 4) =
      some (.value (.ofDouble (.ofSingle d.toSingle))) := by
  have hbits : Bytes.toNat (Bytes.ofNat d.toSingle.toNat 4) = d.toSingle.toNat :=
    Bytes.toNat_ofNat_of_lt d.toSingle.toNat_lt
  simp [content?, MemberTag.decode, hbits]

theorem content?_boolean (b : Bool) :
    memory.content? .boolean (Bytes.ofNat b.toNat 1) = some (.value (.bool b)) := by
  cases b <;> rfl

theorem content?_pointer {a : Address} (h : a < Value.lightBound) :
    memory.content? .pointer (Bytes.ofNat a 8) = some (.value (.light a)) := by
  have haddress : Bytes.toNat (Bytes.ofNat a 8) = a :=
    Bytes.toNat_ofNat_of_lt (Nat.lt_trans h (by decide))
  simp [content?, MemberTag.decode, haddress, Value.light?, h]

theorem content?_null : memory.content? .text (Bytes.ofNat 0 8) = some (.value .nil) := rfl

/-! ## Interned texts -/

theorem untilNul_append_nul (text : Bytes) : Bytes.untilNul (text ++ [0]) = Bytes.untilNul text := by
  simp only [Bytes.untilNul, List.takeWhile_append]
  split
  · rename_i hall
    simpa using ((List.takeWhile_prefix _).eq_of_length hall).symm
  · rfl

/-- The interned text of a string and its address. -/
structure Holds (memory : Memory) (id : StringId) (text : Bytes) (b : Block) : Prop where
  mem : b ∈ memory.blocks
  owner : b.owner = .literal id
  bytes : b.bytes = (text ++ [0]).toArray

theorem Holds.content? {b : Block} (h : memory.Holds id text b) (hm : memory.Sound) (hpos : 0 < b.base)
    (hlt : b.base < Value.lightBound) :
    memory.content? .text (Bytes.ofNat b.base 8) = some (.text (Bytes.untilNul text)) := by
  have haddress : Bytes.toNat (Bytes.ofNat b.base 8) = b.base :=
    Bytes.toNat_ofNat_of_lt (Nat.lt_trans hlt (by decide))
  have hread : memory.readText b.base = Bytes.untilNul text := by
    rw [readText, blockAt?_base hm h.mem]
    dsimp only
    rw [Nat.sub_self, List.drop_zero, h.bytes, List.toList_toArray, untilNul_append_nul]
  rw [Memory.content?, if_pos rfl, haddress, if_neg (Nat.ne_of_gt hpos), hread]

/-- A string that was not asked for before gets a text; the text of another one is as it was. -/
theorem pin_eq (hm : memory.Sound) (hpos : memory.NotNull)
    (hold : ∀ b ∈ memory.blocks, b.owner = .literal id → b.bytes = (text ++ [0]).toArray) :
    ∃ b, (memory.pin id text).1 = b.base ∧ (memory.pin id text).2.Holds id text b ∧
      0 < b.base ∧ b.base ≤ memory.frontier ∧ ((memory.pin id text).2 = memory ∨
        (memory.pin id text).2 = (memory.allocate (.literal id) (text ++ [0]).toArray).2) := by
  unfold pin
  cases h : memory.blocks.find? (·.owner == .literal id) with
  | none => exact ⟨_, rfl, ⟨List.mem_cons_self, rfl, rfl⟩, hpos.1, Nat.le_refl _, .inr rfl⟩
  | some b =>
      have hb := List.mem_of_find?_eq_some h
      have howner : b.owner = .literal id := by simpa using List.find?_some h
      exact ⟨b, rfl, ⟨hb, howner, hold b hb howner⟩, hpos.2 b hb,
        Nat.le_of_add_right_le (hm.below b hb), .inl rfl⟩

/-- What a member means stays the same where its text does. -/
theorem content?_congr (h : tag = .text → Bytes.toNat bytes ≠ 0 →
      memory'.readText (Bytes.toNat bytes) = memory.readText (Bytes.toNat bytes)) :
    memory'.content? tag bytes = memory.content? tag bytes := by
  unfold content?
  by_cases htag : tag = .text
  · simp only [htag, if_true]
    split
    · rfl
    · rename_i hne
      rw [h htag hne]
  · simp only [htag, if_false]

end Memory

namespace Machine

variable {m m' : Machine} {v : Value} {tag : MemberTag} {c : Content} {bytes : Bytes}

/-- The texts of interned strings are what the strings are. -/
def Legible (m : Machine) : Prop :=
  ∀ b ∈ m.heap.memory.blocks, ∀ id, b.owner = .literal id →
    ∃ text, m.strings.strings[id]? = some text ∧ b.bytes = (text ++ [0]).toArray

/-- A value that the library made, and what it stands for is there. -/
structure Genuine (m : Machine) (v : Value) : Prop where
  made : ∀ w, v ≠ .foreign w
  bounded : ∀ a, v = .light a → a < Value.lightBound
  block : ∀ slot, v = .userdata slot → m.heap.userdata? slot ≠ none
  interned : ∀ id, v = .string id → m.strings.strings[id]? ≠ none

/-- The bytes of a value for a member are ready: at most the text of a string is new. -/
structure Prepared (m m' : Machine) (tag : MemberTag) (bytes : Bytes) (c : Content) : Prop where
  length : bytes.length = tag.size
  memory : m.heap.memory.Grows m'.heap.memory
  legible : m'.Legible
  content : m'.heap.memory.content? tag bytes = some c
  pinned : tag = .text → Bytes.toNat bytes ≠ 0 →
    ∃ b ∈ m'.heap.memory.blocks, b.base = Bytes.toNat bytes ∧ ∃ id, b.owner = .literal id

theorem prepared_self (hm : m.Legible) (hlength : bytes.length = tag.size)
    (hcontent : m.heap.memory.content? tag bytes = some c)
    (htext : tag = .text → Bytes.toNat bytes = 0) : Prepared m m tag bytes c :=
  ⟨hlength, .same, hm, hcontent, fun htag hne => absurd (htext htag) hne⟩

/-- An index that gives a value other than nil names a place that is there. -/
theorem kindAt_of_value {i : StackIndex} (h : m.value i ≠ .nil) : m.kindAt i = (m.value i).kind := by
  have hvalid : m.isValid i = true := by
    by_contra hnot
    rw [isValid, Bool.not_eq_true, Bool.or_eq_false_iff] at hnot
    have hposition := Option.not_isSome_iff_eq_none.mp (Bool.eq_false_iff.mp hnot.2)
    refine h ?_
    cases i with
    | registry | environment | upvalue => exact absurd hnot.1 Bool.true_eq_false.mp
    | fromBottom n | fromTop n =>
        change ((m.position? _).bind fun p => m.stack[p]?).getD .nil = _
        rw [hposition]
        rfl
  rw [kindAt, if_pos hvalid]

theorem Legible.extends (hm : m.Legible) (hheap : m'.heap = m.heap)
    (hstrings : m.strings.Extends m'.strings) : m'.Legible := by
  intro b hb id hid
  rw [hheap] at hb
  obtain ⟨text, htext, hbytes⟩ := hm b hb id hid
  exact ⟨text, hstrings id text htext, hbytes⟩

end Machine

/-! ## Checked arguments -/

namespace Op

open Machine

variable {m : Machine} {v : Value} {tag : MemberTag} {c : Content} {n : Nat}

theorem checkInt_ok {i : Int} (h : m.toInt? (m.value (.argument n)) = some i) :
    checkInt n m = .ok i m := by
  rw [checkInt, bind_ok run_get, h]
  rfl

theorem checkInt_refused (h : m.toInt? (m.value (.argument n)) = none) :
    ∃ e, checkInt n m = .error e m := by
  rw [checkInt, bind_ok run_get]
  simp only [h]
  split
  · exact ⟨_, rfl⟩
  · exact ⟨_, rfl⟩

theorem checkNumber_ok {d : Double} (h : m.toDouble? (m.value (.argument n)) = some d) :
    checkNumber n m = .ok d m := by
  rw [checkNumber, bind_ok run_get, h]
  rfl

theorem checkNumber_refused (h : m.toDouble? (m.value (.argument n)) = none) :
    ∃ e, checkNumber n m = .error e m := by
  rw [checkNumber, bind_ok run_get, h]
  exact ⟨_, rfl⟩

theorem checkBool_ok {b : Bool} (h : m.value (.argument n) = .bool b) : checkBool n m = .ok b m := by
  rw [checkBool, bind_ok run_get, h]
  rfl

theorem checkBool_refused (h : ∀ b, m.value (.argument n) ≠ .bool b) :
    ∃ e, checkBool n m = .error e m := by
  rw [checkBool, bind_ok run_get]
  cases hv : m.value (.argument n) with
  | bool b => exact absurd hv (h b)
  | nil | float | int | string | light | object | foreign => exact ⟨_, rfl⟩

theorem checkAddress_ok (h : (m.value (.fromBottom n)).kind = .userdata ∨
      (m.value (.fromBottom n)).kind = .light) :
    checkAddress n m = .ok ((m.address? (m.value (.fromBottom n))).getD 0) m := by
  have hne : m.value (.fromBottom n) ≠ .nil := fun heq => by
    rw [heq] at h
    rcases h with h | h <;> cases h
  rw [checkAddress, bind_ok run_get, kindAt_of_value hne]
  rcases h with h | h <;> rw [h] <;> rfl

theorem checkAddress_refused (h : (m.value (.fromBottom n)).kind ≠ .userdata)
    (h' : (m.value (.fromBottom n)).kind ≠ .light) : ∃ e, checkAddress n m = .error e m := by
  have hkind : m.kindAt (.fromBottom n) ≠ .userdata ∧ m.kindAt (.fromBottom n) ≠ .light := by
    unfold kindAt
    split
    · exact ⟨h, h'⟩
    · exact ⟨by decide, by decide⟩
  rw [checkAddress, bind_ok run_get]
  cases hgot : m.kindAt (.fromBottom n) with
  | userdata => exact absurd hgot hkind.1
  | light => exact absurd hgot hkind.2
  | absent | nil | boolean | number | string | table | function => exact ⟨_, rfl⟩

theorem stringAt_none {i : StackIndex} (h : m.textBytes? (m.value i) = none) :
    m.stringAt i = (none, m) := by
  unfold stringAt
  cases hv : m.value i with
  | string id => simp [hv, textBytes?] at h
  | nil | bool | float | int | light | object | foreign =>
      have hnone : m.numberText? (m.value i) = none := by
        rw [hv] at h ⊢
        simpa [textBytes?] using h
      rw [hv] at hnone
      simp only [hnone]

/-- The string of a text is found, or interned anew. -/
theorem stringAt_some {i : StackIndex} {text : Bytes} (h : m.textBytes? (m.value i) = some text)
    (hstring : ∀ id, m.value i = .string id → m.strings.strings[id]? ≠ none) :
    ∃ id m', m.stringAt i = (some id, m') ∧ m'.heap = m.heap ∧
      m.strings.Extends m'.strings ∧ m'.strings.strings[id]? = some text := by
  unfold stringAt
  cases hv : m.value i with
  | string id =>
      obtain ⟨found, hfound⟩ := Option.ne_none_iff_exists'.mp (hstring id hv)
      rw [hv] at h
      have htext : found = text := by simpa [textBytes?, StringPool.get, hfound] using h
      exact ⟨id, m, rfl, rfl, .refl _, htext ▸ hfound⟩
  | nil | bool | float | int | light | object | foreign =>
      rw [hv] at h
      obtain ⟨number, hnumber, rfl⟩ : ∃ number, m.numberText? (m.value i) = some number ∧
          Utf8.encode number = text := by
        rw [hv]
        simpa [textBytes?] using h
      rw [hv] at hnumber
      simp only [hnumber]
      have hextends : m.strings.Extends (m.intern (Utf8.encode number)).2.strings :=
        StringPool.extends_intern _ _
      have hfound : (m.intern (Utf8.encode number)).2.strings.strings[(m.intern (Utf8.encode number)).1]? =
          some (Utf8.encode number) := StringPool.intern_found
      split
      · exact ⟨_, _, rfl, rfl, hextends, hfound⟩
      · exact ⟨_, _, rfl, rfl, hextends, hfound⟩

theorem run_stringAt {i : StackIndex} {m' : Machine} {id : Option StringId}
    (h : m.stringAt i = (id, m')) :
    (modifyGet (·.stringAt i) : Op ScriptError (Option StringId)) m = .ok id m' := by
  rw [run_modifyGet, h]

theorem checkString_refused (h : m.textBytes? (m.value (.argument n)) = none) :
    ∃ e, checkString n m = .error e m := by
  rw [checkString, bind_ok (run_stringAt (stringAt_none h))]
  exact ⟨_, rfl⟩

theorem checkString_ok {text : Bytes} (h : m.textBytes? (m.value (.argument n)) = some text)
    (hstring : ∀ id, m.value (.argument n) = .string id → m.strings.strings[id]? ≠ none) :
    ∃ id m', checkString n m = .ok id m' ∧ m'.heap = m.heap ∧
      m.strings.Extends m'.strings ∧ m'.strings.strings[id]? = some text := by
  obtain ⟨id, m', hsome, hrest⟩ := stringAt_some h hstring
  refine ⟨id, m', ?_, hrest⟩
  rw [checkString, bind_ok (run_stringAt hsome)]
  rfl

/-- A value of another type is refused, and nothing changes. -/
theorem memberBytes_refused (hv : m.value (.fromBottom 3) = v) (hgenuine : m.Genuine v)
    (h : m.assigned? v tag = none) : ∃ e m', memberBytes tag m = .error e m' ∧ m'.heap = m.heap := by
  have hargument : m.value (.argument 3) = v := hv
  cases tag with
  | signedChar | signedShort | signedInt | signedLong | unsignedChar | unsignedShort | unsignedInt
  | unsignedLong =>
      have hnone : m.toInt? (m.value (.argument 3)) = none := by simpa [assigned?, hargument] using h
      obtain ⟨e, he⟩ := checkInt_refused hnone
      exact ⟨e, m, bind_error he, rfl⟩
  | single | double =>
      have hnone : m.toDouble? (m.value (.argument 3)) = none := by
        simpa [assigned?, hargument] using h
      obtain ⟨e, he⟩ := checkNumber_refused hnone
      exact ⟨e, m, bind_error he, rfl⟩
  | boolean =>
      have hother : ∀ b, m.value (.argument 3) ≠ .bool b := by
        rintro b hb
        rw [← hargument, hb] at h
        cases h
      obtain ⟨e, he⟩ := checkBool_refused hother
      exact ⟨e, m, bind_error he, rfl⟩
  | pointer =>
      have hother : v.kind ≠ .userdata ∧ v.kind ≠ .light := by
        cases v with
        | light a => cases h
        | foreign w => exact absurd rfl (hgenuine.made w)
        | object r =>
            obtain ⟨kind, slot⟩ := r
            cases kind with
            | userdata => exact absurd (by simpa [assigned?] using h) (hgenuine.block slot rfl)
            | table | function | boxed => simp [Value.kind, ObjectKind.valueKind]
        | nil | bool | float | int | string => simp [Value.kind]
      rw [← hv] at hother
      obtain ⟨e, he⟩ := checkAddress_refused hother.1 hother.2
      exact ⟨e, m, bind_error he, rfl⟩
  | text =>
      have hnil : v.isNil = false := by
        cases v <;> first | rfl | cases h
      have hnone : m.textBytes? (m.value (.argument 3)) = none := by
        simpa [assigned?, hnil, hargument] using h
      obtain ⟨e, he⟩ := checkString_refused hnone
      refine ⟨e, m, ?_, rfl⟩
      rw [memberBytes, bind_ok run_get]
      simp only [hv, hnil]
      exact bind_error he

/-- A string of the pool has an address, under which its text is found. -/
theorem pin_prepared {id : StringId} {text : Bytes} (hlegible : m.Legible)
    (hm : m.heap.memory.Sound) (hpos : m.heap.memory.NotNull)
    (hspace : m.heap.memory.frontier < Value.lightBound) (hid : m.strings.strings[id]? = some text) :
    ∃ m' a, pin id m = .ok a m' ∧
      Prepared m m' .text (Bytes.ofNat a 8) (.text (Bytes.untilNul text)) := by
  have hget : m.strings.get id = text := by rw [StringPool.get, hid, Option.getD_some]
  have hold : ∀ b ∈ m.heap.memory.blocks, b.owner = .literal id → b.bytes = (text ++ [0]).toArray := by
    intro b hb howner
    obtain ⟨text', htext', hbytes⟩ := hlegible b hb id howner
    rw [hbytes, Option.some.inj (htext'.symm.trans hid)]
  obtain ⟨b, hbase, hholds, hnull, hle, hmemory⟩ := Memory.pin_eq hm hpos hold
  have hlt : b.base < Value.lightBound := Nat.lt_of_le_of_lt hle hspace
  have haddress : Bytes.toNat (Bytes.ofNat b.base 8) = b.base :=
    Bytes.toNat_ofNat_of_lt (Nat.lt_trans hlt (by decide))
  refine ⟨{ m with heap := { m.heap with memory := (m.heap.memory.pin id text).2 } }, b.base, ?_, ?_⟩
  · rw [pin, run_modifyGet, hget, hbase]
  · have hgrows : m.heap.memory.Grows (m.heap.memory.pin id text).2 := by
      rcases hmemory with heq | heq
      · rw [heq]
        exact .same
      · rw [heq]
        exact .allocate _ _
    exact {
      length := Bytes.length_ofNat _ _
      memory := hgrows
      content := hholds.content? (hgrows.sound hm) hnull hlt
      pinned := fun _ _ => ⟨b, hholds.mem, haddress.symm, id, hholds.owner⟩
      legible := by
        intro b' hb' id' hid'
        have hcases : b' ∈ m.heap.memory.blocks ∨
            b'.owner = .literal id ∧ b'.bytes = (text ++ [0]).toArray := by
          rcases hmemory with heq | heq
          · exact .inl (heq ▸ hb')
          · dsimp only at hb'
            rw [heq] at hb'
            exact (List.mem_cons.mp hb').elim (fun h => .inr (h ▸ ⟨rfl, rfl⟩)) .inl
        rcases hcases with hb' | ⟨howner, hbytes⟩
        · exact hlegible b' hb' id' hid'
        · obtain rfl := BlockOwner.literal.inj (howner.symm.trans hid')
          exact ⟨text, hid, hbytes⟩ }

/-- The text of a string or a number is pinned, and its address is what is written. -/
theorem memberBytes_text {text : Bytes} (hm : m.Reachable) (hlegible : m.Legible)
    (hspace : m.heap.memory.frontier < Value.lightBound) (hv : m.value (.fromBottom 3) = v)
    (hgenuine : m.Genuine v) (hnil : v.isNil = false) (htext : m.textBytes? v = some text) :
    ∃ bytes m', memberBytes .text m = .ok bytes m' ∧
      Prepared m m' .text bytes (.text (Bytes.untilNul text)) := by
  have hargument : m.value (.argument 3) = v := hv
  rw [← hargument] at htext
  obtain ⟨id, m₁, hcheck, hheap, hextends, hid⟩ := checkString_ok htext fun id hid =>
    hgenuine.interned id (hargument.symm.trans hid)
  obtain ⟨m₂, a, hpin, hprepared⟩ := pin_prepared (hlegible.extends hheap hextends)
    (hheap ▸ hm.heap_sound.memory) (hheap ▸ hm.notNull) (hheap ▸ hspace) hid
  refine ⟨Bytes.ofNat a 8, m₂, ?_, { hprepared with memory := hheap ▸ hprepared.memory }⟩
  rw [memberBytes, bind_ok run_get]
  simp only [hv, hnil]
  exact (bind_ok hcheck).trans ((bind_ok hpin).trans rfl)

/-- What fits a pointer has an address, null for a null handle. -/
theorem assigned?_pointer (hm : m.Reachable) (hspace : m.heap.memory.frontier < Value.lightBound)
    (hgenuine : m.Genuine v) (h : m.assigned? v .pointer = some c) :
    ∃ a, (v.kind = .userdata ∨ v.kind = .light) ∧ (m.address? v).getD 0 = a ∧
      a < Value.lightBound ∧ Content.value (.light a) = c := by
  cases v with
  | light a =>
      refine ⟨a, .inr rfl, ?_, hgenuine.bounded a rfl, Option.some.inj h⟩
      by_cases ha : a = 0 <;> simp [address?, ha]
  | object r =>
      obtain ⟨kind, slot⟩ := r
      cases kind with
      | userdata =>
          obtain ⟨u, hu, rfl⟩ := Option.map_eq_some_iff.mp h
          obtain ⟨b, hb, hbase, -⟩ := hm.heap_sound.block hu
          have hbelow := Nat.le_of_add_right_le (hm.heap_sound.memory.below b hb)
          refine ⟨u.address, .inl rfl, by simp [address?, hu], ?_, rfl⟩
          exact Nat.lt_of_le_of_lt (hbase ▸ hbelow) hspace
      | table | function | boxed => cases h
  | nil | bool | float | int | string | foreign => cases h

/-- The bytes of a value that fits are ready. -/
theorem memberBytes_prepared (hm : m.Reachable) (hlegible : m.Legible)
    (hspace : m.heap.memory.frontier < Value.lightBound) (hv : m.value (.fromBottom 3) = v)
    (hgenuine : m.Genuine v) (h : m.assigned? v tag = some c) :
    ∃ bytes m', memberBytes tag m = .ok bytes m' ∧ Prepared m m' tag bytes c := by
  have hargument : m.value (.argument 3) = v := hv
  cases tag with
  | signedChar | signedShort | signedInt | signedLong | unsignedChar | unsignedShort | unsignedInt
  | unsignedLong =>
      obtain ⟨i, hi, rfl⟩ : ∃ i, m.toInt? (m.value (.argument 3)) = some i ∧ _ = c := by
        rw [hargument]
        exact Option.map_eq_some_iff.mp h
      exact ⟨_, m, (bind_ok (checkInt_ok hi)).trans rfl,
        prepared_self hlegible (Bytes.length_ofNat _ _) (Memory.content?_bytesOfInt rfl i)
          fun heq => by cases heq⟩
  | single =>
      obtain ⟨d, hd, rfl⟩ := Option.map_eq_some_iff.mp h
      rw [← hargument] at hd
      exact ⟨_, m, (bind_ok (checkNumber_ok hd)).trans rfl,
        prepared_self hlegible (Bytes.length_ofNat _ _) (Memory.content?_single d)
          fun heq => by cases heq⟩
  | double =>
      obtain ⟨d, hd, rfl⟩ := Option.map_eq_some_iff.mp h
      rw [← hargument] at hd
      exact ⟨_, m, (bind_ok (checkNumber_ok hd)).trans rfl,
        prepared_self hlegible (Bytes.length_ofNat _ _) (Memory.content?_double d)
          fun heq => by cases heq⟩
  | boolean =>
      obtain ⟨b, hb, rfl⟩ : ∃ b, m.value (.argument 3) = .bool b ∧ Content.value (.bool b) = c := by
        cases v with
        | bool b => exact ⟨b, hargument, Option.some.inj h⟩
        | nil | float | int | string | light | object | foreign => cases h
      exact ⟨_, m, (bind_ok (checkBool_ok hb)).trans rfl,
        prepared_self hlegible (Bytes.length_ofNat _ _) (Memory.content?_boolean b)
          fun heq => by cases heq⟩
  | pointer =>
      obtain ⟨a, hkind, ha, hlt, rfl⟩ := assigned?_pointer hm hspace hgenuine h
      subst hv
      refine ⟨_, m, (bind_ok (checkAddress_ok hkind)).trans rfl,
        prepared_self hlegible (Bytes.length_ofNat _ _) ?_ fun heq => by cases heq⟩
      rw [ha]
      exact Memory.content?_pointer hlt
  | text =>
      cases hnil : v.isNil with
      | true =>
          obtain rfl : Content.value .nil = c := by simpa [assigned?, hnil] using h
          refine ⟨Bytes.ofNat 0 8, m, ?_, prepared_self hlegible rfl Memory.content?_null fun _ => rfl⟩
          rw [memberBytes, bind_ok run_get]
          simp only [hv, hnil]
          rfl
      | false =>
          obtain ⟨text, htext, rfl⟩ : ∃ text, m.textBytes? v = some text ∧
              Content.text (Bytes.untilNul text) = c := by
            simpa [assigned?, hnil] using h
          exact memberBytes_text hm hlegible hspace hv hgenuine hnil htext

end Op

end ScriptHost
