import ScriptHost.Number.Power
import ScriptHost.Proofs.Occupancy
import ScriptHost.Value.Encoding

/-! # Words read back

What a word holds is told by its fields: the quiet NaN pattern above, then the tag, then the payload.
A canonical double that is a number never shows the pattern, and a value made with a tag shows that
tag and no other. So a word gives back the kind and the content of its value and nothing else, and
no two values share a word.
-/

namespace ScriptHost

/-! ## The fields of a word -/

namespace Word

/-- The tests of the kind: nil, boolean, float, inline integer, heap object or string, light
    handle. -/
def tests (w : Word) : List Bool :=
  [w.kind == .nil, w.kind == .bool, w.kind == .float, w.kind == .int, w.subTag?.isSome,
    w.kind == .light]

/-- The slot in a word of one sub-tag. -/
def slotOf? (w : Word) (subTag : Nat) : Option Nat :=
  if w.subTag? = some subTag then w.slot? else none

/-- All that can be read from a word. -/
structure Readings where
  isNil : Bool := false
  bool : Option Bool := none
  float : Option Double := none
  int : Option Int := none
  light : Option Nat := none
  subTag : Option Nat := none
  slot : Option Nat := none
  slotOf : Nat → Option Nat := fun _ => none

def readings (w : Word) : Readings where
  isNil := w.kind == .nil
  bool := w.bool?
  float := w.float?
  int := w.int?
  light := w.light?
  subTag := w.subTag?
  slot := w.slot?
  slotOf := w.slotOf?

variable {tag payload subTag slot : Nat} {w : Word}

/-- Every word passes one test. -/
theorem count_tests (w : Word) : w.tests.count true = 1 := by
  unfold tests subTag?
  cases w.kind <;> rfl

theorem bits_make (ht : tag < 8) (hp : payload < 2 ^ 47) :
    (make tag payload).bits.toNat = (0x7FF8 + tag) * 2 ^ 48 + payload := by
  rw [make, UInt64.toNat_ofNat']
  omega

theorem isQuietNaN_make (ht : tag < 8) (hp : payload < 2 ^ 47) :
    (make tag payload).isQuietNaN = true := by
  rw [isQuietNaN, bits_make ht hp, beq_iff_eq]
  omega

theorem tag_make (ht : tag < 8) (hp : payload < 2 ^ 47) : (make tag payload).tag = tag := by
  rw [Word.tag, bits_make ht hp]
  omega

theorem payload_make (ht : tag < 8) (hp : payload < 2 ^ 47) :
    (make tag payload).payload = payload := by
  rw [Word.payload, bits_make ht hp]
  omega

/-- The payload of a heap word holds its sub-tag and its slot. -/
theorem payload_makeObject (ht : subTag < 8) (hs : slot < 2 ^ 32) :
    (makeObject subTag slot).payload = subTag * 2 ^ 44 + slot :=
  payload_make (by omega) (by omega)

theorem kind_makeObject (ht : subTag < 8) (hs : slot < 2 ^ 32) :
    (makeObject subTag slot).kind = .object subTag := by
  have hp : subTag * 2 ^ 44 + slot < 2 ^ 47 := by omega
  have hsub : (subTag * 2 ^ 44 + slot) / 2 ^ 44 = subTag := by omega
  rw [kind, payload_makeObject ht hs, makeObject, isQuietNaN_make (by omega) hp,
    tag_make (by omega) hp, hsub]
  rfl

theorem slot_makeObject (ht : subTag < 8) (hs : slot < 2 ^ 32) :
    (makeObject subTag slot).slot = slot := by
  rw [Word.slot, payload_makeObject ht hs]
  omega

/-- A canonical double is read as a float: its own bits, or those of the one NaN, whose tag is
    zero. -/
theorem kind_double {d : Double} (hd : d.canonical = d) : (Word.mk d.bits).kind = .float := by
  cases hnan : d.isNaN with
  | true =>
      rw [Double.canonical, if_pos hnan] at hd
      rw [← hd]
      decide
  | false =>
      have hquiet : (Word.mk d.bits).isQuietNaN = false := by
        have hinf : BinaryFormat.double.infinity = 0x7FF0 * 2 ^ 48 := by decide
        simp only [Double.isNaN, Double.magnitude, hinf, decide_eq_false_iff_not, Nat.not_lt] at hnan
        simp only [isQuietNaN, beq_eq_false_iff_ne, ne_eq]
        omega
      rw [kind, hquiet]
      rfl

end Word

/-! ## Values with a word of their own -/

namespace Value

open Word

/-- The values that a word can hold: canonical doubles, integers of 47 bits, addresses below
    `2 ^ 47`, and slots and string numbers of 32 bits. -/
def Storable : Value → Prop
  | .nil => True
  | .bool _ => True
  | .float d => d.canonical = d
  | .int i => fitsInline i = true
  | .string id => id < 2 ^ 32
  | .light a => a < lightBound
  | .object r => r.slot < 2 ^ 32
  | .foreign _ => False

/-- The kind of the word of a value. -/
def wordKind : Value → Word.Kind
  | .nil => .nil
  | .bool _ => .bool
  | .float _ => .float
  | .int _ => .int
  | .string _ => .object stringTag
  | .light _ => .light
  | .object r => .object r.kind.subTag
  | .foreign w => w.kind

/-- What should be read from the word of a heap object or a string. -/
def objectReadings (subTag slot : Nat) : Readings where
  subTag := some subTag
  slot := some slot
  slotOf := fun t => if t = subTag then some slot else none

/-- What should be read from the word of a value: its content where it belongs and nothing
    elsewhere. -/
def readings : Value → Readings
  | .nil => { isNil := true }
  | .bool b => { bool := some b }
  | .float d => { float := some d }
  | .int i => { int := some i }
  | .string id => objectReadings stringTag id
  | .light a => { light := some a }
  | .object r => objectReadings r.kind.subTag r.slot
  | .foreign w => w.readings

/-- Integers fit inline if 47 bits hold them. -/
theorem fitsInline_iff {i : Int} : fitsInline i = true ↔ -2 ^ 46 ≤ i ∧ i < 2 ^ 46 := by
  simp only [fitsInline, Bool.and_eq_true, decide_eq_true_eq]
  simp only [inlineMin, inlineMax]
  omega

/-- Every double becomes a value that a word can hold. -/
theorem storable_ofDouble (d : Double) : (ofDouble d).Storable := by
  rw [ofDouble, Storable]
  cases hnan : d.isNaN with
  | true =>
      have hd : d.canonical = Double.canonicalNaN := by rw [Double.canonical, if_pos hnan]
      rw [hd]
      decide
  | false =>
      have hd : d.canonical = d := by simp [Double.canonical, hnan]
      rw [hd, hd]

end Value

namespace Word

variable {v v' : Value}

theorem kind_make {tag payload : Nat} (ht : tag < 8) (hp : payload < 2 ^ 47) :
    (make tag payload).kind =
      match tag with
      | 0 => .float
      | 1 => .nil
      | 2 => .bool
      | 3 => .int
      | 4 => .object (payload / 2 ^ 44)
      | _ => .light := by
  rw [kind, isQuietNaN_make ht hp, tag_make ht hp, payload_make ht hp]
  rfl

theorem kind_encode (hv : v.Storable) : (encode v).kind = v.wordKind := by
  cases v with
  | nil => decide
  | bool b => cases b <;> decide
  | float d => exact kind_double hv
  | int i => exact kind_make (by decide) (by omega)
  | string id => exact kind_makeObject (by decide) hv
  | light a => exact kind_make (by decide) hv
  | object r =>
      refine kind_makeObject ?_ hv
      cases r.kind <;> decide
  | foreign w => exact hv.elim

/-- The words of objects and strings give their sub-tag and their slot. -/
theorem readings_makeObject {subTag slot : Nat} (ht : subTag < 8) (hs : slot < 2 ^ 32) :
    (makeObject subTag slot).readings = Value.objectReadings subTag slot := by
  have hsub : (makeObject subTag slot).subTag? = some subTag := by
    rw [subTag?, kind_makeObject ht hs]
  have hslot : (makeObject subTag slot).slot? = some slot := by
    rw [slot?, hsub, Option.map_some, slot_makeObject ht hs]
  have hslotOf : (makeObject subTag slot).slotOf? =
      fun t => if t = subTag then some slot else none := by
    funext t
    rw [slotOf?, hsub, hslot]
    simp [eq_comm]
  simp [readings, Value.objectReadings, hsub, hslot, hslotOf, bool?, float?, int?, light?,
    kind_makeObject ht hs]

/-- A word without a sub-tag gives neither slot nor sub-tag. -/
theorem readings_plain {w : Word} (hw : w.subTag? = none) : w.readings =
    { isNil := w.kind == .nil, bool := w.bool?, float := w.float?, int := w.int?,
      light := w.light? } := by
  have hslotOf : w.slotOf? = fun _ => none := by
    funext t
    simp [slotOf?, hw]
  simp [readings, slot?, hw, hslotOf]

/-- The sign of an inline integer is the top bit of its payload. -/
theorem int_encode {i : Int} (hi : Value.fitsInline i = true) :
    (encode (.int i)).int? = some i := by
  obtain ⟨hmin, hmax⟩ := Value.fitsInline_iff.mp hi
  have hkind : (encode (.int i)).kind = .int := kind_encode (v := .int i) hi
  have hpayload : (encode (.int i)).payload = (i % 2 ^ 47).toNat :=
    payload_make (by decide) (by omega)
  rw [int?, if_pos hkind, hpayload, Option.some.injEq]
  split <;> omega

theorem readings_encode (hv : v.Storable) : (encode v).readings = v.readings := by
  have hkind := kind_encode hv
  have hsub : (∀ t, v.wordKind ≠ .object t) → (encode v).subTag? = none := by
    intro hv
    rw [subTag?, hkind]
    split
    · rename_i heq
      exact absurd heq (hv _)
    · rfl
  cases v with
  | nil =>
      rw [readings_plain (hsub (by simp [Value.wordKind]))]
      simp [bool?, float?, int?, light?, hkind, Value.wordKind, Value.readings]
  | bool b =>
      rw [readings_plain (hsub (by simp [Value.wordKind]))]
      have hbool : ((encode (.bool b)).bits.toNat % 2 == 1) = b := by cases b <;> decide
      simp [bool?, float?, int?, light?, hkind, Value.wordKind, Value.readings, hbool]
  | float d =>
      rw [readings_plain (hsub (by simp [Value.wordKind]))]
      have hbits : (encode (.float d)).bits = d.bits := rfl
      simp [bool?, float?, int?, light?, hkind, Value.wordKind, Value.readings, hbits]
  | int i =>
      rw [readings_plain (hsub (by simp [Value.wordKind])), int_encode hv]
      simp [bool?, float?, light?, hkind, Value.wordKind, Value.readings]
  | string id => exact readings_makeObject (by decide) hv
  | light a =>
      rw [readings_plain (hsub (by simp [Value.wordKind]))]
      have hpayload : (encode (.light a)).payload = a := payload_make (by decide) hv
      simp [bool?, float?, int?, light?, hkind, Value.wordKind, Value.readings, hpayload]
  | object r => exact readings_makeObject (by cases r.kind <;> decide) hv
  | foreign w => exact hv.elim

/-- The value of a word is the one it was made from. -/
theorem decode_encode (hv : v.Storable) : (encode v).decode = v := by
  have hkind := kind_encode hv
  have hread := readings_encode hv
  cases v with
  | nil => rw [decode, hkind]; rfl
  | bool b =>
      have hbool : (encode (.bool b)).bool? = some b := congrArg Readings.bool hread
      rw [decode, hkind, hbool]
      rfl
  | float d => rw [decode, hkind]; rfl
  | int i =>
      rw [decode, hkind, int_encode hv]
      rfl
  | string id =>
      have hslot : (encode (.string id)).slot = id := slot_makeObject (by decide) hv
      rw [decode, hkind]
      simp [Value.wordKind, hslot]
  | light a =>
      have hpayload : (encode (.light a)).payload = a := payload_make (by decide) hv
      rw [decode, hkind, hpayload]
      rfl
  | object r =>
      obtain ⟨k, slot⟩ := r
      have hlt : k.subTag < 8 := by cases k <;> decide
      have hslot : (encode (.object ⟨k, slot⟩)).slot = slot := slot_makeObject hlt hv
      have hsub : (encode (.object ⟨k, slot⟩)).subTag? = some k.subTag := by
        rw [subTag?, hkind, Value.wordKind]
      have hof : ObjectKind.ofSubTag? k.subTag = some k := by cases k <;> decide
      have href : Ref.ofWord? (encode (.object ⟨k, slot⟩)) = some ⟨k, slot⟩ := by
        rw [Ref.ofWord?, hsub, Option.bind_some, hof, Option.map_some, hslot]
      have hne : k.subTag ≠ stringTag := by cases k <;> decide
      have hmake : encode (.object ⟨k, slot⟩) =
          makeObject k.subTag (encode (.object ⟨k, slot⟩)).slot := by
        rw [hslot]
        rfl
      rw [decode, hkind]
      simp only [Value.wordKind, if_neg hne]
      rw [if_pos hmake, href]
  | foreign w => exact hv.elim

/-- Values with the same word are the same. -/
theorem eq_of_bits (hv : v.Storable) (hv' : v'.Storable)
    (hbits : (encode v).bits = (encode v').bits) : v = v' := by
  have hword : encode v = encode v' := congrArg Word.mk hbits
  rw [← decode_encode hv, hword, decode_encode hv']

end Word

/-! ## Integers through the heap -/

namespace Heap

variable {β : Type} {h : Heap β}

/-- A boxed integer takes an empty slot of its arena. -/
theorem ofInt_boxed (hs : h.Sound) {i : Int} (hi : Value.fitsInline i = false) :
    ∃ slot, h.ofInt i = (.boxed slot, (h.newBoxed i).2) ∧ slot ≤ h.boxed.slots.size ∧
      h.boxed.get? slot = none ∧ (h.ofInt i).2.boxed.get? slot = some i := by
  have hbox := h.ofInt_newBoxed hi
  refine ⟨(h.newBoxed i).1, hbox, ?_, Arena.get?_insert_slot hs.boxed, ?_⟩
  · exact Arena.insert_slot_le hs.boxed
  · rw [hbox]
    exact (Arena.get?_insert hs.boxed).trans (if_pos rfl)

theorem toInt?_ofInt (hs : h.Sound) (i : Int) : (h.ofInt i).2.toInt? (h.ofInt i).1 = some i := by
  cases hi : Value.fitsInline i with
  | true =>
      rw [h.ofInt_inline hi]
      rfl
  | false =>
      obtain ⟨slot, hbox, -, -, hget⟩ := ofInt_boxed hs hi
      rw [hbox] at hget ⊢
      exact hget

theorem storable_ofInt (hs : h.Sound) (hsize : h.boxed.slots.size < 2 ^ 32) (i : Int) :
    (h.ofInt i).1.Storable := by
  cases hi : Value.fitsInline i with
  | true =>
      rw [h.ofInt_inline hi]
      exact hi
  | false =>
      obtain ⟨slot, hbox, hle, -⟩ := ofInt_boxed hs hi
      rw [hbox]
      exact Nat.lt_of_le_of_lt hle hsize

end Heap

namespace Word

/-- Words are faithful. The word of a value passes the one test of the value's kind, gives its
    content where it belongs and nothing elsewhere, and is no other value's word; every double can
    be stored, with its bits unless it is a NaN. An integer comes back from a value on the heap and
    from the word of that value, and is boxed if 47 bits do not hold it and only then. -/
theorem encode_faithful {β : Type} :
    (∀ v : Value, v.Storable → (encode v).kind = v.wordKind ∧ (encode v).tests.count true = 1 ∧
      (encode v).readings = v.readings ∧ (encode v).decode = v) ∧
    (∀ v v' : Value, v.Storable → v'.Storable → (encode v).bits = (encode v').bits → v = v') ∧
    (∀ d : Double, (Value.ofDouble d).Storable ∧
      (encode (.ofDouble d)).float? = some d.canonical ∧
      (encode (.ofDouble d)).bits = if d.isNaN then Double.canonicalNaN.bits else d.bits) ∧
    (∀ (ops : List (Heap.Operation β)) (i : Int),
      let h := (Heap.History.of ops).heap
      (h.ofInt i).2.toInt? (h.ofInt i).1 = some i ∧
      (if -2 ^ 46 ≤ i ∧ i < 2 ^ 46 then h.ofInt i = (.int i, h)
        else ∃ slot, (h.ofInt i).1 = .boxed slot ∧ h.boxed.get? slot = none) ∧
      (h.boxed.slots.size < 2 ^ 32 →
        (h.ofInt i).2.toInt? (encode (h.ofInt i).1).decode = some i)) := by
  refine ⟨fun v hv => ?_, fun v v' => eq_of_bits, fun d => ?_, fun ops i => ?_⟩
  · exact ⟨kind_encode hv, count_tests _, readings_encode hv, decode_encode hv⟩
  · have hv := Value.storable_ofDouble d
    refine ⟨hv, congrArg Readings.float (readings_encode hv), ?_⟩
    exact apply_ite Double.bits _ _ _
  · intro h
    have hs : h.Sound := (Heap.History.balanced ops).sound
    have hint := Heap.toInt?_ofInt hs i
    refine ⟨hint, ?_, fun hsize => ?_⟩
    · split
      · rename_i hi
        exact Heap.ofInt_inline _ (Value.fitsInline_iff.mpr hi)
      · rename_i hi
        have hfits : Value.fitsInline i = false :=
          Bool.eq_false_iff.mpr fun hfits => hi (Value.fitsInline_iff.mp hfits)
        obtain ⟨slot, hbox, -, hempty, -⟩ := Heap.ofInt_boxed hs hfits
        exact ⟨slot, congrArg Prod.fst hbox, hempty⟩
    · rw [decode_encode (Heap.storable_ofInt hs hsize i), hint]

/-- The word of a userdata gives its slot under its own sub-tag only. -/
theorem encode_faithful_userdata :
    (Value.userdata 7).Storable ∧
      (encode (.userdata 7)).readings = Value.objectReadings userdataTag 7 ∧
      (encode (.userdata 7)).decode = .userdata 7 := by
  have hv : (Value.userdata 7).Storable := show 7 < 2 ^ 32 by decide
  obtain ⟨-, -, hread, hdecode⟩ := (encode_faithful (β := Unit)).1 (.userdata 7) hv
  exact ⟨hv, hread, hdecode⟩

end Word

end ScriptHost
