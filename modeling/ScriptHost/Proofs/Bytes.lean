import ScriptHost.Number.Power
import ScriptHost.Proofs.Memory

/-! # Bytes

What is written to native memory is read back, and nothing but the bytes that were written changes. Bytes
are followed by their addresses while blocks come and go.
-/

namespace ScriptHost

namespace Bytes

variable {n width : Nat} {bytes : Bytes}

@[simp] theorem length_ofNat (n width : Nat) : (ofNat n width).length = width := by
  induction width generalizing n with
  | zero => rfl
  | succ width ih => simp [ofNat, ih]

/-- Bytes hold a number up to their width. -/
theorem toNat_ofNat (n width : Nat) : toNat (ofNat n width) = n % 2 ^ (8 * width) := by
  induction width generalizing n with
  | zero => simp [ofNat, toNat, Nat.mod_one]
  | succ width ih =>
      have hpow : 2 ^ (8 * (width + 1)) = 256 * 2 ^ (8 * width) := by
        rw [Nat.mul_succ, Nat.pow_add, Nat.mul_comm]
      have hbyte : (UInt8.ofNat n).toNat = n % 256 := by simp
      rw [ofNat, toNat, ih, hbyte, hpow, Nat.mod_mul]

theorem toNat_ofNat_of_lt (h : n < 2 ^ (8 * width)) : toNat (ofNat n width) = n := by
  rw [toNat_ofNat, Nat.mod_eq_of_lt h]

end Bytes

namespace Memory

variable {m : Memory} {a c : Address} {b : Block} {bytes : Bytes} {array : Array UInt8}
  {position count i : Nat}

/-- The byte at an address, if there is one. -/
def byte? (m : Memory) (a : Address) : Option UInt8 := (m.blockAt? a).bind fun b => b.bytes[a - b.base]?

/-- So many bytes from an address on all lie in a block. -/
structure Spans (m : Memory) (b : Block) (a : Address) (count : Nat) : Prop where
  mem : b ∈ m.blocks
  start : b.base ≤ a
  stop : a + count ≤ b.base + b.bytes.size

theorem Spans.covers (h : m.Spans b a count) (hi : i < count) : b.covers (a + i) := by
  have hstart := h.start
  have hstop := h.stop
  rw [Block.covers_iff, Block.extent]
  grind

theorem Spans.blockAt? (h : m.Spans b a count) (hm : m.Sound) (hi : i < count) :
    m.blockAt? (a + i) = some b :=
  (blockAt?_eq_some hm).mpr ⟨h.mem, h.covers hi⟩

theorem byte?_of_mem (hm : m.Sound) (hb : b ∈ m.blocks) (hi : i < b.bytes.size) :
    m.byte? (b.base + i) = b.bytes[i]? := by
  have hspans : m.Spans b b.base b.bytes.size := ⟨hb, Nat.le_refl _, Nat.le_refl _⟩
  rw [byte?, hspans.blockAt? hm hi, Option.bind_some, Nat.add_sub_cancel_left]

/-! ## Writing -/

/-- Bytes are stored from a position on, up to the end of the array. -/
theorem getElem?_overwrite (array : Array UInt8) (position : Nat) (bytes : Bytes) (i : Nat) :
    (overwrite array position bytes)[i]? =
      if position ≤ i ∧ i < position + bytes.length ∧ i < array.size then bytes[i - position]?
      else array[i]? := by
  induction bytes generalizing array position with
  | nil =>
      rw [if_neg (by simp only [List.length_nil]; omega)]
      rfl
  | cons x rest ih =>
      rw [overwrite, ih, Array.size_setIfInBounds, Array.getElem?_setIfInBounds, List.length_cons]
      by_cases hi : position = i
      · subst hi
        rw [if_neg (by omega)]
        by_cases hlt : position < array.size <;> simp [hlt]
      · by_cases hlater : position + 1 ≤ i ∧ i < position + 1 + rest.length ∧ i < array.size
        · have hindex : i - position = (i - (position + 1)) + 1 := by omega
          rw [if_pos hlater, if_pos (by omega), hindex, List.getElem?_cons_succ]
        · rw [if_neg hlater, if_neg hi, if_neg (by omega)]

/-- The block that is written to. -/
def written (b : Block) (a : Address) (bytes : Bytes) : Block :=
  { b with bytes := overwrite b.bytes (a - b.base) bytes }

@[simp] theorem size_written : (written b a bytes).bytes.size = b.bytes.size := size_overwrite ..

@[simp] theorem covers_written : (written b a bytes).covers c = b.covers c := by
  rw [Block.covers, Block.covers, Block.extent, Block.extent, size_written]
  rfl

/-- A write changes the block at its address and no other. -/
theorem mem_write (hm : m.Sound) {c : Block} : c ∈ (m.write a bytes).blocks ↔
    ∃ b ∈ m.blocks, c = if b.covers a then written b a bytes else b := by
  unfold write
  cases h : m.blockAt? a with
  | none =>
      have hnone : ∀ b ∈ m.blocks, b.covers a = false := fun b hb =>
        Bool.eq_false_iff.mpr (List.find?_eq_none.mp h b hb)
      constructor
      · intro hc
        exact ⟨c, hc, by simp [hnone c hc]⟩
      · rintro ⟨b, hb, rfl⟩
        simpa [hnone b hb] using hb
  | some d =>
      obtain ⟨hd, hcovers⟩ := (blockAt?_eq_some hm).mp h
      have hsame : ∀ b ∈ m.blocks, (if b.base = d.base then written d a bytes else b) =
          if b.covers a then written b a bytes else b := by
        intro b hb
        by_cases hbase : b.base = d.base
        · rw [eq_of_base hm hb hd hbase, if_pos rfl, if_pos hcovers]
        · rw [if_neg hbase, if_neg]
          intro hb'
          exact hbase (congrArg Block.base (eq_of_covers hm hb hd hb' hcovers))
      simp only [List.mem_map]
      constructor
      · rintro ⟨b, hb, rfl⟩
        exact ⟨b, hb, hsame b hb⟩
      · rintro ⟨b, hb, rfl⟩
        exact ⟨b, hb, hsame b hb⟩

/-- Nothing changes beside the bytes that are written. -/
theorem byte?_write_of_ne (hm : m.Sound) (hc : c < a ∨ a + bytes.length ≤ c) :
    (m.write a bytes).byte? c = m.byte? c := by
  have hm' : (m.write a bytes).Sound := write_sound hm
  cases h : m.blockAt? c with
  | none =>
      have hnone : (m.write a bytes).blockAt? c = none := by
        rw [blockAt?, List.find?_eq_none] at h ⊢
        intro d hd
        obtain ⟨b, hb, rfl⟩ := (mem_write hm).mp hd
        have hcovers := h b hb
        split
        · rwa [covers_written]
        · exact hcovers
      rw [byte?, byte?, h, hnone]
  | some b =>
      obtain ⟨hb, hcovers⟩ := (blockAt?_eq_some hm).mp h
      by_cases ha : b.covers a
      · have hmem : written b a bytes ∈ (m.write a bytes).blocks :=
          (mem_write hm).mpr ⟨b, hb, by rw [if_pos ha]⟩
        have hat : (m.write a bytes).blockAt? c = some (written b a bytes) := by
          exact (blockAt?_eq_some hm').mpr ⟨hmem, by rwa [covers_written]⟩
        have hout : ¬ (a - b.base ≤ c - b.base ∧ c - b.base < a - b.base + bytes.length ∧
            c - b.base < b.bytes.size) := by
          rw [Block.covers_iff] at ha hcovers
          grind
        rw [byte?, byte?, h, hat, Option.bind_some, Option.bind_some, written, getElem?_overwrite,
          if_neg hout]
      · have hmem : b ∈ (m.write a bytes).blocks :=
          (mem_write hm).mpr ⟨b, hb, by rw [if_neg ha]⟩
        rw [byte?, byte?, h, (blockAt?_eq_some hm').mpr ⟨hmem, hcovers⟩]

theorem blockAt?_write (hm : m.Sound) (h : m.blockAt? c ≠ none) : (m.write a bytes).blockAt? c ≠ none := by
  obtain ⟨b, hb⟩ := Option.ne_none_iff_exists'.mp h
  obtain ⟨hmem, hcovers⟩ := (blockAt?_eq_some hm).mp hb
  have hmem' := (@mem_write m a bytes hm _).mpr ⟨b, hmem, rfl⟩
  have hcovers' : (if b.covers a then written b a bytes else b).covers c := by
    split
    · rwa [covers_written]
    · exact hcovers
  rw [(blockAt?_eq_some (write_sound hm)).mpr ⟨hmem', hcovers'⟩]
  exact Option.some_ne_none _

/-! ## Reading -/

/-- Bytes that all lie in a block are read one by one. -/
theorem Spans.getElem?_read (h : m.Spans b a count) (hm : m.Sound) (hi : i < count) :
    (m.read a count)[i]? = m.byte? (a + i) := by
  have hstart := h.start
  have hstop := h.stop
  have hfirst : m.blockAt? a = some b := h.blockAt? (i := 0) hm (by omega)
  have hlt : a - b.base + i < b.bytes.size := by grind
  have hindex : a + i - b.base = a - b.base + i := by grind
  rw [read, hfirst, byte?, h.blockAt? hm hi]
  simp [hi, hlt, hindex]

@[simp] theorem length_read (m : Memory) (a : Address) (count : Nat) : (m.read a count).length = count := by
  unfold read
  split <;> simp

theorem Spans.write (h : m.Spans b a count) (hm : m.Sound) (c : Address) (bytes : Bytes) :
    ∃ b', (m.write c bytes).Spans b' a count ∧ b'.base = b.base ∧ b'.owner = b.owner := by
  refine ⟨_, ⟨(mem_write hm).mpr ⟨b, h.mem, rfl⟩, ?_, ?_⟩, ?_, ?_⟩
  · split
    · exact h.start
    · exact h.start
  · split
    · rw [size_written]
      exact h.stop
    · exact h.stop
  · split <;> rfl
  · split <;> rfl

/-- What is written is read back. -/
theorem Spans.read_write (h : m.Spans b a bytes.length) (hm : m.Sound) :
    (m.write a bytes).read a bytes.length = bytes := by
  have hm' : (m.write a bytes).Sound := write_sound hm
  obtain ⟨b', h', hbase, -⟩ := h.write hm a bytes
  apply List.ext_getElem?
  intro i
  by_cases hi : i < bytes.length
  · have hstart := h.start
    have hstop := h.stop
    have hcovers : b.covers a := h.covers (i := 0) (by omega)
    have hmem : written b a bytes ∈ (m.write a bytes).blocks :=
      (mem_write hm).mpr ⟨b, h.mem, by rw [if_pos hcovers]⟩
    have hat : (m.write a bytes).blockAt? (a + i) = some (written b a bytes) :=
      (blockAt?_eq_some hm').mpr ⟨hmem, by rw [covers_written]; exact h.covers hi⟩
    have hindex : a + i - b.base - (a - b.base) = i := by grind
    have hin : a - b.base ≤ a + i - b.base ∧ a + i - b.base < a - b.base + bytes.length ∧
        a + i - b.base < b.bytes.size := by grind
    rw [h'.getElem?_read hm' hi, byte?, hat, Option.bind_some, written, getElem?_overwrite,
      if_pos hin, hindex]
  · rw [List.getElem?_eq_none (by simpa using hi), List.getElem?_eq_none (by simpa using hi)]

/-- Bytes beside those that are written are read as before. -/
theorem read_write_of_apart (hm : m.Sound) (hb : m.blockAt? c = some b)
    (h : c + count ≤ a ∨ a + bytes.length ≤ c) : (m.write a bytes).read c count = m.read c count := by
  have hm' : (m.write a bytes).Sound := write_sound hm
  obtain ⟨hmem, hcovers⟩ := (blockAt?_eq_some hm).mp hb
  have hmem' := (@mem_write m a bytes hm _).mpr ⟨b, hmem, rfl⟩
  by_cases ha : b.covers a
  · rw [if_pos ha] at hmem'
    have hat : (m.write a bytes).blockAt? c = some (written b a bytes) :=
      (blockAt?_eq_some hm').mpr ⟨hmem', by rwa [covers_written]⟩
    rw [read, read, hat, hb]
    refine List.map_congr_left fun i hi => ?_
    have hlt := List.mem_range.mp hi
    have hout : ¬ (a - b.base ≤ c - b.base + i ∧ c - b.base + i < a - b.base + bytes.length ∧
        c - b.base + i < b.bytes.size) := by
      rw [Block.covers_iff] at ha hcovers
      grind
    dsimp only [written]
    rw [getElem?_overwrite, if_neg hout]
  · rw [if_neg ha] at hmem'
    rw [read, read, hb, (blockAt?_eq_some hm').mpr ⟨hmem', hcovers⟩]

/-! ## New blocks -/

/-- At most one block is new. -/
inductive Grows (m : Memory) : Memory → Prop where
  | same : Grows m m
  | allocate (owner : BlockOwner) (array : Array UInt8) : Grows m (m.allocate owner array).2

variable {m' : Memory}

theorem Grows.sound (h : m.Grows m') (hm : m.Sound) : m'.Sound := by
  cases h with
  | same => exact hm
  | allocate => exact allocate_sound hm

theorem Grows.mem (h : m.Grows m') (hb : b ∈ m.blocks) : b ∈ m'.blocks := by
  cases h with
  | same => exact hb
  | allocate => exact List.mem_cons_of_mem _ hb

theorem Grows.spans (h : m.Grows m') (hs : m.Spans b a count) : m'.Spans b a count :=
  ⟨h.mem hs.mem, hs.start, hs.stop⟩

theorem Grows.blockAt? (h : m.Grows m') (hm : m.Sound) (hb : m.blockAt? c = some b) :
    m'.blockAt? c = some b := by
  obtain ⟨hmem, hcovers⟩ := (blockAt?_eq_some hm).mp hb
  exact (blockAt?_eq_some (h.sound hm)).mpr ⟨h.mem hmem, hcovers⟩

theorem Grows.byte? {x : UInt8} (h : m.Grows m') (hm : m.Sound) (hx : m.byte? c = some x) :
    m'.byte? c = some x := by
  obtain ⟨b, hb, hbyte⟩ := Option.bind_eq_some_iff.mp hx
  rw [Memory.byte?, h.blockAt? hm hb]
  exact hbyte

theorem Grows.read (h : m.Grows m') (hm : m.Sound) (hb : m.blockAt? c = some b) :
    m'.read c count = m.read c count := by
  rw [Memory.read, Memory.read, hb, h.blockAt? hm hb]

end Memory

end ScriptHost
