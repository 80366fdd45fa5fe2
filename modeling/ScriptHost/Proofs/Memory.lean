import Mathlib.Tactic.Common
import ScriptHost.Memory

/-! # Blocks lie apart

Blocks are given out upwards and never overlap, so an address lies in one block at most, and giving
up some blocks leaves what is read from the others.
-/

namespace ScriptHost

theorem Block.extent_pos (b : Block) : 0 < b.extent := by
  unfold Block.extent
  omega

@[simp] theorem Block.covers_iff {b : Block} {a : Address} :
    b.covers a = true ↔ b.base ≤ a ∧ a < b.base + b.extent := by
  simp [Block.covers]

/-- A block lies at its base. -/
theorem Block.covers_base (b : Block) : b.covers b.base :=
  Block.covers_iff.mpr ⟨Nat.le_refl _, Nat.lt_add_of_pos_right b.extent_pos⟩

namespace Memory

variable {m : Memory} {a : Address} {b c : Block} {bytes : Bytes} {owner : BlockOwner}
  {bases : List Address}

/-- Newer blocks lie above older ones, and all lie below the frontier. -/
structure Sound (m : Memory) : Prop where
  below : ∀ b ∈ m.blocks, b.base + b.extent ≤ m.frontier
  apart : m.blocks.Pairwise fun b c => c.base + c.extent ≤ b.base

theorem sound_empty : Sound {} := ⟨by simp, List.Pairwise.nil⟩

theorem eq_of_covers (hm : m.Sound) (hb : b ∈ m.blocks) (hc : c ∈ m.blocks) (hba : b.covers a)
    (hca : c.covers a) : b = c := by
  have hdisjoint : ∀ {b c : Block}, c.base + c.extent ≤ b.base → b.covers a → c.covers a → False := by
    intro b c hle hb hc
    rw [Block.covers_iff] at hb hc
    exact absurd (Nat.lt_of_lt_of_le hc.2 (Nat.le_trans hle hb.1)) (Nat.lt_irrefl a)
  exact List.Pairwise.forall_of_forall_of_flip (R := fun b c => b.covers a → c.covers a → b = c)
    (fun _ _ _ _ => rfl) (hm.apart.imp fun hle hb hc => (hdisjoint hle hb hc).elim)
    (hm.apart.imp fun hle hb hc => (hdisjoint hle hc hb).elim) hb hc hba hca

theorem blockAt?_eq_some (hm : m.Sound) : m.blockAt? a = some b ↔ b ∈ m.blocks ∧ b.covers a := by
  constructor
  · intro h
    exact ⟨List.mem_of_find?_eq_some h, by simpa using List.find?_some h⟩
  · rintro ⟨hb, hcov⟩
    cases h : m.blockAt? a with
    | none =>
        rw [blockAt?, List.find?_eq_none] at h
        exact absurd hcov (h b hb)
    | some c =>
        have hc : c.covers a = true := by simpa using List.find?_some h
        rw [eq_of_covers hm (List.mem_of_find?_eq_some h) hb hc hcov]

/-- Bases tell blocks apart. -/
theorem eq_of_base (hm : m.Sound) (hb : b ∈ m.blocks) (hc : c ∈ m.blocks)
    (h : b.base = c.base) : b = c := by
  exact eq_of_covers hm hb hc b.covers_base (h ▸ c.covers_base)

/-! ## Operations -/

theorem allocate_sound {bytes : Array UInt8} (hm : m.Sound) : (m.allocate owner bytes).2.Sound := by
  constructor
  · intro b hb
    have hroom : ∀ e : Nat, e ≤ (e / alignment + 2) * alignment := by
      intro e
      unfold alignment
      omega
    rcases List.mem_cons.mp hb with rfl | hb
    · exact Nat.add_le_add_left (hroom _) _
    · exact Nat.le_trans (hm.below b hb) (Nat.le_add_right _ _)
  · exact List.pairwise_cons.mpr ⟨fun b hb => hm.below b hb, hm.apart⟩

/-- New blocks leave the others. -/
theorem blockAt?_allocate {bytes : Array UInt8} (hm : m.Sound) (h : m.blockAt? a = some b) :
    (m.allocate owner bytes).2.blockAt? a = some b := by
  obtain ⟨hmem, hcov⟩ := (blockAt?_eq_some hm).mp h
  exact (blockAt?_eq_some (allocate_sound hm)).mpr ⟨List.mem_cons_of_mem _ hmem, hcov⟩

theorem size_overwrite (array : Array UInt8) (position : Nat) :
    (overwrite array position bytes).size = array.size := by
  induction bytes generalizing array position with
  | nil => rfl
  | cons x rest ih => simp [overwrite, ih]

/-- Writing changes bytes of one block and keeps its place and its size. -/
theorem write_blocks (m : Memory) (a : Address) (bytes : Bytes) :
    ∃ f : Block → Block, (m.write a bytes).blocks = m.blocks.map f ∧
    ∀ b, (f b).base = b.base ∧ (b ∈ m.blocks → m.Sound → (f b).bytes.size = b.bytes.size ∧
      (f b).owner = b.owner) := by
  unfold write
  cases h : m.blockAt? a with
  | none => exact ⟨id, by simp, fun b => ⟨rfl, fun _ _ => ⟨rfl, rfl⟩⟩⟩
  | some c =>
      refine ⟨_, rfl, fun b => ?_⟩
      split
      · rename_i hbase
        refine ⟨hbase.symm, fun hb hm => ?_⟩
        rw [eq_of_base hm hb ((blockAt?_eq_some hm).mp h).1 hbase]
        exact ⟨size_overwrite _ _, rfl⟩
      · exact ⟨rfl, fun _ _ => ⟨rfl, rfl⟩⟩

theorem write_frontier : (m.write a bytes).frontier = m.frontier := by
  unfold write
  split <;> rfl

theorem write_sound (hm : m.Sound) : (m.write a bytes).Sound := by
  obtain ⟨f, hblocks, hf⟩ := write_blocks m a bytes
  have hextent : ∀ b ∈ m.blocks, (f b).extent = b.extent := by
    intro b hb
    rw [Block.extent, Block.extent, ((hf b).2 hb hm).1]
  constructor
  · intro b hb
    rw [hblocks, List.mem_map] at hb
    obtain ⟨b, hb, rfl⟩ := hb
    rw [write_frontier, (hf b).1, hextent b hb]
    exact hm.below b hb
  · rw [hblocks, List.pairwise_map]
    refine hm.apart.imp_of_mem fun {b c} hb hc hle => ?_
    rw [(hf b).1, (hf c).1, hextent c hc]
    exact hle

theorem mem_free : b ∈ (m.free bases).blocks ↔ b ∈ m.blocks ∧ b.base ∉ bases := by
  unfold free
  cases bases with
  | nil => simp
  | cons x rest => simp

theorem free_sound (hm : m.Sound) : (m.free bases).Sound := by
  unfold free
  split
  · exact hm
  · exact ⟨fun b hb => hm.below b (List.mem_filter.mp hb).1, hm.apart.filter _⟩

/-- Giving up blocks leaves the others. -/
theorem blockAt?_free (hm : m.Sound) (h : m.blockAt? a = some b) (hb : b.base ∉ bases) :
    (m.free bases).blockAt? a = some b := by
  obtain ⟨hmem, hcov⟩ := (blockAt?_eq_some hm).mp h
  exact (blockAt?_eq_some (free_sound hm)).mpr ⟨mem_free.mpr ⟨hmem, hb⟩, hcov⟩

theorem blockAt?_base (hm : m.Sound) (hb : b ∈ m.blocks) : m.blockAt? b.base = some b :=
  (blockAt?_eq_some hm).mpr ⟨hb, b.covers_base⟩

end Memory

end ScriptHost
