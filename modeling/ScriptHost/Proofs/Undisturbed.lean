import ScriptHost.Proofs.Bytes
import ScriptHost.Proofs.States

/-! # Memory that is left alone

Native memory changes in few ways: blocks are added, bytes are written, and the blocks of dead userdata are
given up. Addresses are never used again, so bytes that nobody writes to stay what they are as long as their
block is there, and the texts of interned strings stay for ever.
-/

namespace ScriptHost

theorem Block.ext {b c : Block} (hbase : b.base = c.base) (howner : b.owner = c.owner)
    (hbytes : b.bytes = c.bytes) : b = c := by
  cases b
  cases c
  simp_all

namespace Memory

variable {m m' m'' : Memory} {kept : Address → Prop} {a : Address} {b : Block} {count : Nat}

/-- What a step of a machine does to its memory. -/
inductive Update (m : Memory) : Memory → Prop where
  | same : Update m m
  | allocate (owner : BlockOwner) (bytes : Array UInt8) : Update m (m.allocate owner bytes).2
  | write (a : Address) (bytes : Bytes) : Update m (m.write a bytes)
  | free (bases : List Address) : (∀ b ∈ m.blocks, b.base ∈ bases → b.owner = .userdata) →
      Update m (m.free bases)

theorem Update.sound (h : m.Update m') (hm : m.Sound) : m'.Sound := by
  cases h with
  | same => exact hm
  | allocate => exact allocate_sound hm
  | write => exact write_sound hm
  | free => exact free_sound hm

/-- Null is not the address of a block. -/
def NotNull (m : Memory) : Prop := 0 < m.frontier ∧ ∀ b ∈ m.blocks, 0 < b.base

theorem Update.notNull (h : m.Update m') (hpos : m.NotNull) : m'.NotNull := by
  obtain ⟨hfrontier, hblocks⟩ := hpos
  cases h with
  | same => exact ⟨hfrontier, hblocks⟩
  | allocate =>
      refine ⟨Nat.add_pos_left hfrontier _, ?_⟩
      intro b hb
      rcases List.mem_cons.mp hb with rfl | hb
      · exact hfrontier
      · exact hblocks b hb
  | write a bytes =>
      obtain ⟨f, hmap, hf⟩ := write_blocks m a bytes
      refine ⟨by rwa [write_frontier], ?_⟩
      rw [hmap]
      intro b hb
      obtain ⟨old, hold, rfl⟩ := List.mem_map.mp hb
      rw [(hf old).1]
      exact hblocks old hold
  | free bases =>
      refine ⟨?_, fun b hb => hblocks b (mem_free.mp hb).1⟩
      unfold Memory.free
      split <;> exact hfrontier

/-- Blocks at one place, of one size, have a byte in common where their memories have. -/
theorem getElem?_bytes_congr {b' : Block} {i : Nat} (hm : m.Sound) (hm' : m'.Sound) (hb : b ∈ m.blocks)
    (hb' : b' ∈ m'.blocks) (hbase : b'.base = b.base) (hsize : b'.bytes.size = b.bytes.size)
    (h : i < b.bytes.size → m'.byte? (b.base + i) = m.byte? (b.base + i)) :
    b'.bytes[i]? = b.bytes[i]? := by
  by_cases hi : i < b.bytes.size
  · rw [← byte?_of_mem hm hb hi, ← h hi, ← hbase, byte?_of_mem hm' hb' (hsize ▸ hi)]
  · rw [Array.getElem?_eq_none (Nat.not_lt.mp hi), Array.getElem?_eq_none (by omega)]

/-! ## Texts -/

/-- The address of a byte of an interned text. -/
def InText (m : Memory) (a : Address) : Prop :=
  ∃ b ∈ m.blocks, (∃ id, b.owner = .literal id) ∧ b.covers a

/-- Interned texts are still there. -/
def KeepsTexts (m m' : Memory) : Prop := ∀ b ∈ m.blocks, ∀ id, b.owner = .literal id → b ∈ m'.blocks

theorem KeepsTexts.refl (m : Memory) : m.KeepsTexts m := fun _ hb _ _ => hb

theorem KeepsTexts.trans (h : m.KeepsTexts m') (h' : m'.KeepsTexts m'') : m.KeepsTexts m'' :=
  fun b hb id hid => h' b (h b hb id hid) id hid

theorem KeepsTexts.readText (h : m.KeepsTexts m') (hm : m.Sound) (hm' : m'.Sound) (hb : b ∈ m.blocks)
    {id : StringId} (hid : b.owner = .literal id) : m'.readText b.base = m.readText b.base := by
  rw [Memory.readText, Memory.readText, blockAt?_base hm hb, blockAt?_base hm' (h b hb id hid)]

/-- A write to a block that is no text leaves all texts. -/
theorem mem_write_text {d : Block} {bytes : Bytes} {id : StringId} (hm : m.Sound) (hb : b ∈ m.blocks)
    (ha : b.covers a) (hother : ∀ id, b.owner ≠ .literal id) (hd : d.owner = .literal id) :
    d ∈ (m.write a bytes).blocks ↔ d ∈ m.blocks := by
  rw [mem_write hm]
  constructor
  · rintro ⟨old, hold, rfl⟩
    by_cases hcovers : old.covers a
    · rw [if_pos hcovers] at hd
      obtain rfl := eq_of_covers hm hold hb hcovers ha
      exact absurd hd (hother id)
    · rwa [if_neg hcovers]
  · intro hmem
    refine ⟨d, hmem, (if_neg fun hcovers => ?_).symm⟩
    obtain rfl := eq_of_covers hm hmem hb hcovers ha
    exact hother id hd

/-- What a step writes is neither at kept addresses nor in texts, or changes nothing there. -/
def Spares (kept : Address → Prop) (m m' : Memory) : Prop :=
  ∀ a bytes, m' = m.write a bytes → ∀ c, kept c ∨ m.InText c → m'.byte? c = m.byte? c

theorem spares_refl : m.Spares kept m := fun _ _ _ _ _ => rfl

/-- A new block is no write. -/
theorem spares_allocate {owner : BlockOwner} {array : Array UInt8} :
    m.Spares kept (m.allocate owner array).2 := by
  intro a bytes heq
  obtain ⟨f, hmap, -⟩ := write_blocks m a bytes
  have hlength := congrArg (fun memory : Memory => memory.blocks.length) heq
  simp only [hmap, List.length_map] at hlength
  simp [Memory.allocate] at hlength

/-- Blocks that are given up are not written to. -/
theorem spares_free {bases : List Address} : m.Spares kept (m.free bases) := by
  intro a bytes heq c _
  obtain ⟨f, hmap, -⟩ := write_blocks m a bytes
  have hblocks : (m.free bases).blocks = m.blocks := by
    have hlength := congrArg (fun memory : Memory => memory.blocks.length) heq
    simp only [hmap, List.length_map] at hlength
    refine List.Sublist.eq_of_length ?_ hlength
    unfold Memory.free
    split
    · exact List.Sublist.refl _
    · exact List.filter_sublist
  rw [byte?, byte?, blockAt?, blockAt?, hblocks]

theorem Update.keepsTexts (h : m.Update m') (hm : m.Sound) (hspares : m.Spares kept m') :
    m.KeepsTexts m' := by
  cases h with
  | same => exact .refl m
  | allocate => exact fun b hb _ _ => List.mem_cons_of_mem _ hb
  | free bases hbases =>
      intro b hb id hid
      refine mem_free.mpr ⟨hb, fun hfreed => ?_⟩
      rw [hbases b hb hfreed] at hid
      cases hid
  | write a bytes =>
      intro b hb id hid
      obtain ⟨f, hmap, hf⟩ := write_blocks m a bytes
      obtain ⟨hbase, hrest⟩ := hf b
      obtain ⟨hsize, howner⟩ := hrest hb hm
      have hmem : f b ∈ (m.write a bytes).blocks := hmap ▸ List.mem_map_of_mem hb
      have hbytes : (f b).bytes = b.bytes := by
        apply Array.ext_getElem?
        intro i
        apply getElem?_bytes_congr hm (write_sound hm) hb hmem hbase hsize
        intro hi
        have hcovers : b.covers (b.base + i) :=
          Spans.covers (m := m) (b := b) ⟨hb, Nat.le_refl _, Nat.le_refl _⟩ hi
        exact hspares a bytes rfl _ (.inr ⟨b, hb, ⟨id, hid⟩, hcovers⟩)
      have heq : f b = b := Block.ext hbase howner hbytes
      rwa [heq] at hmem

/-! ## Blocks -/

/-- A block that is still there has its kept bytes. -/
def Follows (kept : Address → Prop) (b : Block) (m : Memory) : Prop :=
  b.base < m.frontier ∧ ∀ b' ∈ m.blocks, b'.base = b.base →
    b'.bytes.size = b.bytes.size ∧ ∀ i, kept (b.base + i) → b'.bytes[i]? = b.bytes[i]?

theorem follows_self (hm : m.Sound) (hb : b ∈ m.blocks) : Follows kept b m := by
  refine ⟨Nat.lt_of_lt_of_le (Nat.lt_add_of_pos_right b.extent_pos) (hm.below b hb), ?_⟩
  intro b' hb' hbase
  rw [eq_of_base hm hb' hb hbase]
  exact ⟨rfl, fun _ _ => rfl⟩

theorem Follows.update (hf : Follows kept b m) (h : m.Update m') (hm : m.Sound)
    (hspares : m.Spares kept m') : Follows kept b m' := by
  obtain ⟨hbelow, hblocks⟩ := hf
  cases h with
  | same => exact ⟨hbelow, hblocks⟩
  | allocate =>
      refine ⟨Nat.lt_of_lt_of_le hbelow (Nat.le_add_right _ _), ?_⟩
      intro b' hb' hbase
      rcases List.mem_cons.mp hb' with rfl | hb'
      · exact absurd hbase (Nat.ne_of_gt hbelow)
      · exact hblocks b' hb' hbase
  | free bases =>
      refine ⟨?_, fun b' hb' => hblocks b' (mem_free.mp hb').1⟩
      unfold Memory.free
      split <;> exact hbelow
  | write a bytes =>
      obtain ⟨f, hmap, hf⟩ := write_blocks m a bytes
      refine ⟨by rwa [write_frontier], ?_⟩
      intro b' hb' hbase'
      obtain ⟨old, hold, rfl⟩ := List.mem_map.mp (hmap ▸ hb')
      obtain ⟨hbase, hrest⟩ := hf old
      obtain ⟨hsize, -⟩ := hrest hold hm
      obtain ⟨hsize', hbytes⟩ := hblocks old hold (hbase.symm.trans hbase')
      refine ⟨hsize.trans hsize', fun i hkept => ?_⟩
      rw [← hbytes i hkept]
      apply getElem?_bytes_congr hm (write_sound hm) hold hb' hbase hsize
      intro hi
      rw [← hbase, hbase']
      exact hspares a bytes rfl _ (.inl hkept)

/-- Kept bytes of a block are read again. -/
theorem Follows.read (hf : Follows kept b m') (hm : m.Sound) (hm' : m'.Sound)
    (hb : m.blockAt? a = some b) (hthere : ∃ b' ∈ m'.blocks, b'.base = b.base)
    (hkept : ∀ i < count, kept (a + i)) : m'.read a count = m.read a count := by
  obtain ⟨hmem, hcovers⟩ := (blockAt?_eq_some hm).mp hb
  obtain ⟨b', hb', hbase⟩ := hthere
  obtain ⟨hsize, hbytes⟩ := hf.2 b' hb' hbase
  have hcovers' : b'.covers a := by
    rw [Block.covers_iff, Block.extent] at hcovers ⊢
    rwa [hbase, hsize]
  rw [Memory.read, Memory.read, hb, (blockAt?_eq_some hm').mpr ⟨hb', hcovers'⟩]
  refine List.map_congr_left fun i hi => ?_
  rw [Block.covers_iff] at hcovers
  have hindex : b.base + (a - b.base + i) = a + i := by grind
  rw [hbase, hbytes]
  rw [hindex]
  exact hkept i (List.mem_range.mp hi)

end Memory

namespace Machine

variable {m m' : Machine} {kept : Address → Prop} {a : Address} {b : Block} {count : Nat}

theorem Change.memory (h : Change m m') : m.heap.memory.Update m'.heap.memory := by
  cases h with
  | heap h hc =>
      cases hc with
      | newUserdata size => exact .allocate .userdata _
      | allocate owner bytes => exact .allocate owner bytes
      | write a bytes => exact .write a bytes
      | newTable | newFunction | newBoxed | entry | tableMeta | userMeta | userValue | upvalue => exact .same
  | constructed => rw [heap_note]; exact .same
  | stack | intern | host | cache | native => exact .same

theorem cycle_memory (m : Machine) : m.cycle.2.2.heap.memory =
    m.heap.memory.free ((m.marked.userdata.garbage m.marked.marking.marks.userdata).map (·.2.address)) := by
  obtain ⟨marking, hmarked⟩ := m.marked_eq
  have hmemory : m.marked.memory = m.heap.memory := by rw [hmarked]
  rw [cycle_heap, ← hmemory]
  rfl

/-- A cycle gives up blocks of userdata only. -/
theorem memory_cycle (hm : m.heap.Sound) : m.heap.memory.Update m.cycle.2.2.heap.memory := by
  rw [cycle_memory]
  refine .free _ fun b hb hbase => ?_
  obtain ⟨⟨slot, u⟩, hu, haddress⟩ := List.mem_map.mp hbase
  obtain ⟨marking, hmarked⟩ := m.marked_eq
  have huserdata : m.heap.userdata? slot = some u := by
    have hget := (Arena.mem_garbage.mp hu).1
    rwa [hmarked] at hget
  obtain ⟨b', hb', hbase', howner, -⟩ := hm.block huserdata
  rw [Memory.eq_of_base hm.memory hb hb' (haddress.symm.trans hbase'.symm)]
  exact howner

theorem Move.memory (h : Move m m') (hm : m.heap.Sound) : m.heap.memory.Update m'.heap.memory := by
  cases h with
  | change h => exact h.memory
  | service h => rw [h.heap]; exact .same
  | cycle => exact memory_cycle hm
  | shut => rw [shut_heap]; exact .same
  | turn slot =>
      obtain ⟨events, h⟩ := turned_eq m slot
      rw [h]
      exact .same
  | enter | leave | protect | unprotect => exact .same

theorem Reachable.notNull (hm : m.Reachable) : m.heap.memory.NotNull := by
  have hboth : m.heap.Sound ∧ m.heap.memory.NotNull := by
    refine hm.induction (P := fun m => m.heap.Sound ∧ m.heap.memory.NotNull) (fun limits => ?_) ?_
    · have hfrontier : 0 < (create limits).heap.memory.frontier := Nat.zero_lt_of_ne_zero (by
        change 0x5A3C00000000 ≠ 0
        decide)
      exact ⟨(reachable_create limits).heap_sound, hfrontier, by rintro b ⟨⟩⟩
    · rintro m m' hmove ⟨hs, hpos⟩
      exact ⟨hmove.heap_sound hs, (hmove.memory hs).notNull hpos⟩
  exact hboth.2

/-! ## Undisturbed bytes -/

/-- Steps in which nothing is written over kept addresses and interned texts, after which the blocks of the
    kept addresses are still there. -/
structure Undisturbed (kept : Address → Prop) (m m' : Machine) : Prop where
  steps : Relation.ReflTransGen
    (fun m m' => Move m m' ∧ m.heap.memory.Spares kept m'.heap.memory) m m'
  allocated : ∀ b ∈ m.heap.memory.blocks, ∀ a, kept a → b.covers a →
    ∃ b' ∈ m'.heap.memory.blocks, b'.base = b.base

theorem Undisturbed.moves (h : Undisturbed kept m m') : Moves m m' :=
  h.steps.lift id fun _ _ hstep => hstep.1

theorem Undisturbed.keepsTexts (h : Undisturbed kept m m') (hm : m.Reachable) :
    m.heap.memory.KeepsTexts m'.heap.memory := by
  have hboth : m'.heap.Sound ∧ m.heap.memory.KeepsTexts m'.heap.memory := by
    have hsteps := h.steps
    clear h
    induction hsteps with
    | refl => exact ⟨hm.heap_sound, .refl _⟩
    | tail _ hstep ih =>
        obtain ⟨hs, htexts⟩ := ih
        have hupdate := hstep.1.memory hs
        exact ⟨hstep.1.heap_sound hs, htexts.trans (hupdate.keepsTexts hs.memory hstep.2)⟩
  exact hboth.2

theorem Undisturbed.follows (h : Undisturbed kept m m') (hm : m.Reachable) (hb : b ∈ m.heap.memory.blocks) :
    Memory.Follows kept b m'.heap.memory := by
  have hboth : m'.heap.Sound ∧ Memory.Follows kept b m'.heap.memory := by
    have hsteps := h.steps
    clear h
    induction hsteps with
    | refl => exact ⟨hm.heap_sound, Memory.follows_self hm.heap_sound.memory hb⟩
    | tail _ hstep ih =>
        obtain ⟨hs, hf⟩ := ih
        exact ⟨hstep.1.heap_sound hs, hf.update (hstep.1.memory hs) hs.memory hstep.2⟩
  exact hboth.2

/-- Interning leaves memory alone. -/
theorem undisturbed_intern (kept : Address → Prop) (bytes : Bytes) :
    Undisturbed kept m (m.intern bytes).2 where
  steps := .single ⟨.change (.intern bytes), Memory.spares_refl⟩
  allocated b hb _ _ _ := ⟨b, hb, rfl⟩

/-- A new userdata leaves the memory that was there alone. -/
theorem undisturbed_newUserdata (kept : Address → Prop) (size : Nat) :
    Undisturbed kept m { m with heap := (m.heap.newUserdata size).2 } where
  steps := .single ⟨.change (.heap _ (.newUserdata size)), Memory.spares_allocate⟩
  allocated b hb _ _ _ := ⟨b, List.mem_cons_of_mem _ hb, rfl⟩

/-- A cycle leaves memory alone that it does not give up. -/
theorem undisturbed_cycle (hopen : m.closed = false)
    (h : ∀ b ∈ m.heap.memory.blocks, ∀ a, kept a → b.covers a →
      ∃ b' ∈ m.cycle.2.2.heap.memory.blocks, b'.base = b.base) : Undisturbed kept m m.cycle.2.2 where
  steps := by
    refine .single ⟨.cycle hopen, ?_⟩
    rw [cycle_memory]
    exact Memory.spares_free
  allocated := h

theorem Undisturbed.trans {m'' : Machine} (h : Undisturbed kept m m') (h' : Undisturbed kept m' m'')
    (hm : m.Reachable) : Undisturbed kept m m'' where
  steps := h.steps.trans h'.steps
  allocated b hb a ha hcovers := by
    obtain ⟨b', hb', hbase⟩ := h.allocated b hb a ha hcovers
    have hsize := ((h.follows hm hb).2 b' hb' hbase).1
    have hcovers' : b'.covers a := by
      rw [Block.covers_iff, Block.extent] at hcovers ⊢
      rwa [hbase, hsize]
    obtain ⟨b'', hb'', hbase'⟩ := h'.allocated b' hb' a ha hcovers'
    exact ⟨b'', hb'', hbase'.trans hbase⟩

/-- Kept bytes are read again. -/
theorem Undisturbed.read (h : Undisturbed kept m m') (hm : m.Reachable) (hcount : 0 < count)
    (hthere : m.heap.memory.blockAt? a ≠ none) (hkept : ∀ i < count, kept (a + i)) :
    m'.heap.memory.read a count = m.heap.memory.read a count := by
  obtain ⟨b, hb⟩ := Option.ne_none_iff_exists'.mp hthere
  obtain ⟨hmem, hcovers⟩ := (Memory.blockAt?_eq_some hm.heap_sound.memory).mp hb
  exact (h.follows hm hmem).read hm.heap_sound.memory (hm.moves h.moves).heap_sound.memory hb
    (h.allocated b hmem a (hkept 0 hcount) hcovers) hkept

end Machine

end ScriptHost
