import Mathlib.Tactic.SplitIfs
import ScriptHost.Text.Utf8

/-! # Reading text back

The bytes of a text read as this text. A character is told from its first byte on, so that the bytes
of a text are read character by character.
-/

namespace ScriptHost.Utf8

variable {lead b c d : UInt8} {rest : Bytes} {n : Nat}

theorem isTail_iff : isTail b = true ↔ 128 ≤ b.toNat ∧ b.toNat ≤ 191 := by
  simp [isTail, UInt8.le_iff_toNat_le]

/-- The second byte of a character is one that continues, and in a narrower range after four of the
    first bytes. -/
theorem isSecond_of_range (hb : 128 ≤ b.toNat ∧ b.toNat ≤ 191)
    (hlow : lead.toNat = 224 → 160 ≤ b.toNat) (hsurrogate : lead.toNat = 237 → b.toNat ≤ 159)
    (hshort : lead.toNat = 240 → 144 ≤ b.toNat) (hhigh : lead.toNat = 244 → b.toNat ≤ 143) :
    isSecond lead b = true := by
  simp only [isSecond, secondRange, Bool.and_eq_true, decide_eq_true_eq, UInt8.le_iff_toNat_le,
    ← UInt8.toNat_inj]
  split_ifs with h₁ h₂ h₃ h₄
  · exact ⟨hlow h₁, hb.2⟩
  · exact ⟨hb.1, hsurrogate h₂⟩
  · exact ⟨hshort h₃, hb.2⟩
  · exact ⟨hb.1, hhigh h₄⟩
  · exact hb

theorem chars_ascii (h : lead.toNat < 128) :
    chars (lead :: rest) = Char.ofNat lead.toNat :: chars rest := by
  rw [chars, if_pos (by simpa [UInt8.lt_iff_toNat_lt] using h)]

theorem chars_multibyte (h : 128 ≤ lead.toNat) : chars (lead :: rest) =
    (multibyte lead rest).1 :: chars (rest.drop (multibyte lead rest).2) := by
  rw [chars, if_neg (by simpa [UInt8.lt_iff_toNat_lt] using h)]

theorem chars_two (hlead : 194 ≤ lead.toNat ∧ lead.toNat ≤ 223) (hb : isTail b = true) :
    chars (lead :: b :: rest) = assemble (lead.toNat % 32) [b] :: chars rest := by
  have hpair : multibyte lead (b :: rest) = (assemble (lead.toNat % 32) [b], 1) := by
    simp [multibyte, UInt8.le_iff_toNat_le, hlead, hb]
  rw [chars_multibyte (by omega), hpair]
  rfl

theorem chars_three (hlead : 224 ≤ lead.toNat ∧ lead.toNat ≤ 239) (hb : isSecond lead b = true)
    (hc : isTail c = true) :
    chars (lead :: b :: c :: rest) = assemble (lead.toNat % 16) [b, c] :: chars rest := by
  have hsmall : ¬ lead.toNat ≤ 223 := by omega
  have htriple : multibyte lead (b :: c :: rest) = (assemble (lead.toNat % 16) [b, c], 2) := by
    simp [multibyte, UInt8.le_iff_toNat_le, hlead, hsmall, hb, hc]
  rw [chars_multibyte (by omega), htriple]
  rfl

theorem chars_four (hlead : 240 ≤ lead.toNat ∧ lead.toNat ≤ 244) (hb : isSecond lead b = true)
    (hc : isTail c = true) (hd : isTail d = true) :
    chars (lead :: b :: c :: d :: rest) = assemble (lead.toNat % 8) [b, c, d] :: chars rest := by
  have hsmall : ¬ lead.toNat ≤ 223 ∧ ¬ lead.toNat ≤ 239 := by omega
  have hquadruple : multibyte lead (b :: c :: d :: rest) =
      (assemble (lead.toNat % 8) [b, c, d], 3) := by
    simp [multibyte, UInt8.le_iff_toNat_le, hlead, hsmall, hb, hc, hd]
  rw [chars_multibyte (by omega), hquadruple]
  rfl

theorem toNat_ofNat_of_lt (h : n < 256) : (UInt8.ofNat n).toNat = n := by
  simpa using h

/-- A character is read from its bytes, and nothing of what follows them. -/
theorem chars_encoded (x : Char) (rest : Bytes) :
    chars (String.utf8EncodeChar x ++ rest) = x :: chars rest := by
  have hvalid : x.val.toNat < 55296 ∨ 57343 < x.val.toNat ∧ x.val.toNat < 1114112 := x.valid
  have hchar : ∀ n, n = x.val.toNat → Char.ofNat n = x := by
    rintro _ rfl
    exact Char.ofNat_toNat x
  unfold String.utf8EncodeChar
  generalize x.val.toNat = v at hvalid hchar
  dsimp only
  split_ifs with h₁ h₂ h₃
  · have hlead : (UInt8.ofNat v).toNat = v := toNat_ofNat_of_lt (by omega)
    rw [List.singleton_append, chars_ascii (by omega), hlead, hchar v rfl]
  · have hlead : (UInt8.ofNat (v / 64 % 32 + 192)).toNat = v / 64 % 32 + 192 :=
      toNat_ofNat_of_lt (by omega)
    have hb : (UInt8.ofNat (v % 64 + 128)).toNat = v % 64 + 128 := toNat_ofNat_of_lt (by omega)
    rw [List.cons_append, List.singleton_append, chars_two (by omega) (isTail_iff.mpr (by omega))]
    congr 1
    refine hchar _ ?_
    simp only [List.foldl_cons, List.foldl_nil, hlead, hb]
    omega
  · have hlead : (UInt8.ofNat (v / 4096 % 16 + 224)).toNat = v / 4096 % 16 + 224 :=
      toNat_ofNat_of_lt (by omega)
    have hb : (UInt8.ofNat (v / 64 % 64 + 128)).toNat = v / 64 % 64 + 128 :=
      toNat_ofNat_of_lt (by omega)
    have hc : (UInt8.ofNat (v % 64 + 128)).toNat = v % 64 + 128 := toNat_ofNat_of_lt (by omega)
    rw [List.cons_append, List.cons_append, List.singleton_append, chars_three (by omega)
      (isSecond_of_range (by omega) (by omega) (by omega) (by omega) (by omega))
      (isTail_iff.mpr (by omega))]
    congr 1
    refine hchar _ ?_
    simp only [List.foldl_cons, List.foldl_nil, hlead, hb, hc]
    omega
  · have hlead : (UInt8.ofNat (v / 262144 % 8 + 240)).toNat = v / 262144 % 8 + 240 :=
      toNat_ofNat_of_lt (by omega)
    have hb : (UInt8.ofNat (v / 4096 % 64 + 128)).toNat = v / 4096 % 64 + 128 :=
      toNat_ofNat_of_lt (by omega)
    have hc : (UInt8.ofNat (v / 64 % 64 + 128)).toNat = v / 64 % 64 + 128 :=
      toNat_ofNat_of_lt (by omega)
    have hd : (UInt8.ofNat (v % 64 + 128)).toNat = v % 64 + 128 := toNat_ofNat_of_lt (by omega)
    rw [List.cons_append, List.cons_append, List.cons_append, List.singleton_append,
      chars_four (by omega) (isSecond_of_range (by omega) (by omega) (by omega) (by omega) (by omega))
      (isTail_iff.mpr (by omega)) (isTail_iff.mpr (by omega))]
    congr 1
    refine hchar _ ?_
    simp only [List.foldl_cons, List.foldl_nil, hlead, hb, hc, hd]
    omega

theorem chars_flatMap (xs : List Char) : chars (xs.flatMap String.utf8EncodeChar) = xs := by
  induction xs with
  | nil =>
      simp [chars]
  | cons x xs ih => rw [List.flatMap_cons, chars_encoded, ih]

/-- The bytes that are collected from a position on. -/
theorem toList_loop (bytes : ByteArray) (i : Nat) (collected : List UInt8) :
    ByteArray.toList.loop bytes i collected = collected.reverse ++ bytes.data.toList.drop i := by
  fun_induction ByteArray.toList.loop bytes i collected with
  | case1 i collected hlt ih =>
      have hin : i < bytes.data.toList.length := hlt
      rw [ih, List.drop_eq_getElem_cons hin, List.reverse_cons, List.append_assoc]
      simp [ByteArray.get!, hlt]
  | case2 i collected hge =>
      rw [List.drop_of_length_le (Nat.le_of_not_lt hge), List.append_nil]

theorem encode_eq (text : String) : encode text = text.toList.flatMap String.utf8EncodeChar := by
  have hbytes : text.toByteArray = text.toList.utf8Encode := by
    rw [← String.toByteArray_ofList, String.ofList_toList]
  rw [encode, String.toUTF8, hbytes, ByteArray.toList, toList_loop, List.utf8Encode,
    List.toList_data_toByteArray]
  rfl

/-- Text survives being written as bytes. -/
theorem decodeLossy_encode (text : String) : decodeLossy (encode text) = text := by
  rw [decodeLossy, encode_eq, chars_flatMap, String.ofList_toList]

end ScriptHost.Utf8
