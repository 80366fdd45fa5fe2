import ScriptHost.Handle
import ScriptHost.Proofs.Bytes
import ScriptHost.Proofs.Lawful

/-! # Counted objects in native memory

A counted object is what the bytes of a block of the host say, its count among them. Blocks do not
overlap, so a count changes only by what is done to its object. The counts agree with a list of owners if
every object has as many references as it is in the list; null stands for no owner.
-/

namespace ScriptHost

theorem Bytes.toNat_lt (bytes : Bytes) : Bytes.toNat bytes < 256 ^ bytes.length := by
  induction bytes with
  | nil => exact Nat.one_pos
  | cons x rest ih =>
      have hx : x.toNat < 256 := x.toNat_lt
      rw [Bytes.toNat, List.length_cons, Nat.pow_succ]
      omega

namespace Memory

variable {m : Memory} {a c : Address} {b b' : Block} {bytes : Bytes} {bases : List Address} {n k : Nat}
  {user user' : Bool}

/-- Of two blocks one lies below the other. -/
theorem Sound.ordered (hm : m.Sound) (hb : b ∈ m.blocks) (hb' : b' ∈ m.blocks) (hne : b.base ≠ b'.base) :
    b.base + b.extent ≤ b'.base ∨ b'.base + b'.extent ≤ b.base :=
  List.Pairwise.forall_of_forall_of_flip
    (R := fun b c => b.base ≠ c.base → b.base + b.extent ≤ c.base ∨ c.base + c.extent ≤ b.base)
    (fun _ _ hne => absurd rfl hne) (hm.apart.imp fun hle _ => .inr hle) (hm.apart.imp fun hle _ => .inl hle)
    hb hb' hne

/-- A block with room for so many bytes lies at an address; it is the block of a userdata or it is not. -/
def Room (m : Memory) (user : Bool) (a : Address) (n : Nat) : Prop :=
  ∃ b ∈ m.blocks, b.base = a ∧ n ≤ b.bytes.size ∧ (b.owner = .userdata ↔ user = true)

namespace Room

theorem ne (h : m.Room false a n) (h' : m.Room true c k) (hm : m.Sound) : a ≠ c := by
  obtain ⟨b, hb, rfl, -, howner⟩ := h
  obtain ⟨b', hb', rfl, -, howner'⟩ := h'
  intro hbase
  obtain rfl := eq_of_base hm hb hb' hbase
  cases howner.mp (howner'.mpr rfl)

theorem lt_frontier (h : m.Room user a n) (hm : m.Sound) : a < m.frontier := by
  obtain ⟨b, hb, rfl, -⟩ := h
  exact Nat.lt_of_lt_of_le (Nat.lt_add_of_pos_right b.extent_pos) (hm.below b hb)

theorem blockAt? (h : m.Room user a n) (hm : m.Sound) : ∃ b, m.blockAt? a = some b := by
  obtain ⟨b, hb, rfl, -⟩ := h
  exact ⟨b, blockAt?_base hm hb⟩

theorem write (h : m.Room user a n) (hm : m.Sound) (c : Address) (bytes : Bytes) :
    (m.write c bytes).Room user a n := by
  obtain ⟨b, hb, rfl, hn, howner⟩ := h
  obtain ⟨f, hblocks, hf⟩ := write_blocks m c bytes
  obtain ⟨hsize, howner'⟩ := (hf b).2 hb hm
  exact ⟨f b, hblocks ▸ List.mem_map_of_mem hb, (hf b).1, hsize ▸ hn, howner' ▸ howner⟩

theorem allocate (h : m.Room user a n) (owner : BlockOwner) (array : Array UInt8) :
    (m.allocate owner array).2.Room user a n := by
  obtain ⟨b, hb, hrest⟩ := h
  exact ⟨b, List.mem_cons_of_mem _ hb, hrest⟩

theorem free (h : m.Room user a n) (ha : a ∉ bases) : (m.free bases).Room user a n := by
  obtain ⟨b, hb, rfl, hrest⟩ := h
  exact ⟨b, mem_free.mpr ⟨hb, ha⟩, rfl, hrest⟩

/-- A write to another block is not seen. -/
theorem read_write (h : m.Room user a n) (h' : m.Room user' c k) (hm : m.Sound) (hk : bytes.length ≤ k)
    (hne : a ≠ c) : (m.write c bytes).read a n = m.read a n := by
  obtain ⟨b, hb, rfl, hn, -⟩ := h
  obtain ⟨b', hb', rfl, hk', -⟩ := h'
  refine read_write_of_apart hm (blockAt?_base hm hb) ?_
  have hordered := hm.ordered hb hb' hne
  unfold Block.extent at hordered
  grind

theorem read_write_self (h : m.Room user a n) (hm : m.Sound) (hn : bytes.length ≤ n) :
    (m.write a bytes).read a bytes.length = bytes := by
  obtain ⟨b, hb, rfl, hsize, -⟩ := h
  have hspans : m.Spans b b.base bytes.length := ⟨hb, Nat.le_refl _, Nat.add_le_add_left (Nat.le_trans hn hsize) _⟩
  exact hspans.read_write hm

theorem read_allocate (h : m.Room user a n) (hm : m.Sound) (owner : BlockOwner) (array : Array UInt8) :
    (m.allocate owner array).2.read a k = m.read a k := by
  obtain ⟨b, hb⟩ := h.blockAt? hm
  exact Grows.read (.allocate owner array) hm hb

theorem read_free (h : m.Room user a n) (hm : m.Sound) (ha : a ∉ bases) : (m.free bases).read a k = m.read a k := by
  obtain ⟨b, hb, rfl, -⟩ := h
  rw [read, read, blockAt?_base hm hb, blockAt?_free hm (blockAt?_base hm hb) ha]

/-- A new block. -/
theorem allocate_self (owner : BlockOwner) (array : Array UInt8) :
    (m.allocate owner array).2.Room (owner == .userdata) m.frontier array.size :=
  ⟨⟨m.frontier, owner, array⟩, List.mem_cons_self, rfl, Nat.le_refl _, by rw [beq_iff_eq]⟩

theorem read_allocate_self (hm : m.Sound) (owner : BlockOwner) (array : Array UInt8) :
    (m.allocate owner array).2.read m.frontier array.size = array.toList := by
  have hm' : (m.allocate owner array).2.Sound := allocate_sound hm
  have hat : (m.allocate owner array).2.blockAt? m.frontier = some ⟨m.frontier, owner, array⟩ :=
    blockAt?_base hm' (b := ⟨m.frontier, owner, array⟩) List.mem_cons_self
  rw [read, hat]
  apply List.ext_getElem?
  intro i
  by_cases hi : i < array.size
  · simp [hi]
  · simp [hi]

end Room

end Memory

/-! ## Counts -/

theorem Counted.length_toBytes (c : Counted) : c.toBytes.length = BoundType.shared.size := by
  simp [toBytes, bytesOfInt, fieldSize, BoundType.size]

theorem Counted.count_ofBytes {c : Counted} (hc : c.count < 2 ^ 64) : (ofBytes c.toBytes).count = c.count := by
  have hdrop : c.toBytes.drop fieldSize = Bytes.ofNat c.count fieldSize :=
    List.drop_left' (Bytes.length_ofNat _ _)
  change Bytes.toNat (c.toBytes.drop fieldSize) = c.count
  rw [hdrop]
  exact Bytes.toNat_ofNat_of_lt hc

namespace Machine

variable {m m' : Machine} {a b u : Address} {c : Counted} {objects owners owners' : List Address}

/-- A block of the host that has room for a counted object lies at an address. -/
def Object (m : Machine) (a : Address) : Prop := m.heap.memory.Room false a BoundType.shared.size

/-- The block of a userdata that has room for a pointer lies at an address. -/
def Box (m : Machine) (a : Address) : Prop := m.heap.memory.Room true a Memory.pointerSize

theorem count_lt (m : Machine) (a : Address) : (m.counted a).count < 2 ^ 64 := by
  have hlt := Bytes.toNat_lt ((m.readBytes a BoundType.shared.size).drop Counted.fieldSize)
  have hlength : ((m.readBytes a BoundType.shared.size).drop Counted.fieldSize).length = 8 := by
    rw [List.length_drop, readBytes, Memory.length_read]
    rfl
  rw [hlength] at hlt
  exact hlt

theorem count_storeCounted (hm : m.heap.memory.Sound) (ha : m.Object a) (hc : c.count < 2 ^ 64) :
    ((m.storeCounted a c).counted a).count = c.count := by
  have hread : (m.storeCounted a c).readBytes a BoundType.shared.size = c.toBytes := by
    have hself := ha.read_write_self hm (Nat.le_of_eq c.length_toBytes)
    rwa [c.length_toBytes] at hself
  rw [counted, hread, Counted.count_ofBytes hc]

theorem counted_storeCounted (hm : m.heap.memory.Sound) (ha : m.Object a) (hb : m.Object b) (hne : b ≠ a) :
    (m.storeCounted a c).counted b = m.counted b :=
  congrArg Counted.ofBytes (hb.read_write ha hm (Nat.le_of_eq c.length_toBytes) hne)

theorem readPointer_storeCounted (hm : m.heap.memory.Sound) (ha : m.Object a) (hu : m.Box u) :
    (m.storeCounted a c).heap.memory.readPointer u = m.heap.memory.readPointer u :=
  congrArg Bytes.toNat (hu.read_write ha hm (Nat.le_of_eq c.length_toBytes) (ha.ne hu hm).symm)

/-! ## Owners -/

/-- The counts of objects agree with a list of owners, and nobody owns an object that was destroyed. -/
structure Tallies (m : Machine) (objects owners : List Address) : Prop where
  sound : m.heap.memory.Sound
  object : ∀ a ∈ objects, a ≠ 0 ∧ m.Object a
  known : ∀ a ∈ owners, a ≠ 0 → a ∈ objects ∧ a ∉ m.destroyed
  gone : ∀ a ∈ m.destroyed, a ∈ objects
  count : ∀ a ∈ objects, a ∉ m.destroyed → (m.counted a).count = owners.count a

namespace Tallies

theorem perm (h : m.Tallies objects owners) (hperm : owners.Perm owners') : m.Tallies objects owners' where
  sound := h.sound
  object := h.object
  known a ha := h.known a (hperm.mem_iff.mpr ha)
  gone := h.gone
  count a ha hlive := (h.count a ha hlive).trans (hperm.count_eq a)

theorem cons_null : m.Tallies objects (0 :: owners) ↔ m.Tallies objects owners := by
  constructor
  · intro h
    refine ⟨h.sound, h.object, fun a ha => h.known a (List.mem_cons_of_mem _ ha), h.gone,
      fun a ha hlive => ?_⟩
    rw [h.count a ha hlive, List.count_cons_of_ne (h.object a ha).1.symm]
  · intro h
    refine ⟨h.sound, h.object, fun a ha hne => h.known a ((List.mem_cons.mp ha).resolve_left hne) hne,
      h.gone, fun a ha hlive => ?_⟩
    rw [h.count a ha hlive, List.count_cons_of_ne (h.object a ha).1.symm]

/-- A machine with the same objects, each with its count. -/
theorem of_counted (h : m.Tallies objects owners) (sound : m'.heap.memory.Sound)
    (object : ∀ a, m.Object a → m'.Object a ∧ m'.counted a = m.counted a)
    (destroyed : m'.destroyed = m.destroyed) : m'.Tallies objects owners where
  sound := sound
  object a ha := ⟨(h.object a ha).1, (object a (h.object a ha).2).1⟩
  known a ha hne := destroyed ▸ h.known a ha hne
  gone := destroyed ▸ h.gone
  count a ha hlive := by
    rw [(object a (h.object a ha).2).2]
    exact h.count a ha (destroyed ▸ hlive)

theorem of_eq (h : m.Tallies objects owners) (memory : m'.heap.memory = m.heap.memory)
    (destroyed : m'.destroyed = m.destroyed) : m'.Tallies objects owners :=
  h.of_counted (memory ▸ h.sound)
    (fun a ha => ⟨by rwa [Object, memory], by rw [counted, counted, readBytes, readBytes, memory]⟩) destroyed

theorem retain (h : m.Tallies objects owners) (ha : a ∈ objects) (hlive : a ∉ m.destroyed)
    (hfits : owners.count a + 1 < 2 ^ 64) : (m.retain a).Tallies objects (a :: owners) := by
  obtain ⟨hne, hobject⟩ := h.object a ha
  refine ⟨Memory.write_sound h.sound, fun b hb => ⟨(h.object b hb).1, (h.object b hb).2.write h.sound _ _⟩,
    fun b hb hne => ?_, h.gone, fun b hb hlive' => ?_⟩
  · rcases List.mem_cons.mp hb with rfl | hb
    · exact ⟨ha, hlive⟩
    · exact h.known b hb hne
  · by_cases hba : b = a
    · subst hba
      have hcount : (m.counted b).retained.count = owners.count b + 1 :=
        congrArg Nat.succ (h.count b ha hlive)
      rw [Machine.retain, count_storeCounted h.sound hobject (by rw [hcount]; exact hfits), hcount,
        List.count_cons_self]
    · rw [Machine.retain, counted_storeCounted h.sound hobject (h.object b hb).2 hba, h.count b hb hlive',
        List.count_cons_of_ne (Ne.symm hba)]

end Tallies

/-- Releasing an object changes its count, and destroys it at zero. -/
theorem release_eq (m : Machine) (a : Address) : ∃ journal, m.release a =
    { m.storeCounted a (m.counted a).released with
      destroyed := if (m.counted a).released.count = 0 then a :: m.destroyed else m.destroyed
      journal } := by
  unfold release
  dsimp only
  split
  · exact ⟨_, rfl⟩
  · exact ⟨_, rfl⟩

namespace Tallies

theorem count_released (h : m.Tallies objects (a :: owners)) (hne : a ≠ 0) :
    (m.counted a).released.count = owners.count a := by
  obtain ⟨ha, hlive⟩ := h.known a List.mem_cons_self hne
  have hcount := h.count a ha hlive
  rw [List.count_cons_self] at hcount
  change (m.counted a).count - 1 = _
  omega

/-- An object is destroyed when its last owner gives it up. -/
theorem mem_destroyed_release (h : m.Tallies objects (a :: owners)) (hne : a ≠ 0) :
    b ∈ (m.release a).destroyed ↔ b ∈ m.destroyed ∨ b = a ∧ a ∉ owners := by
  obtain ⟨journal, heq⟩ := m.release_eq a
  rw [heq]
  simp only [h.count_released hne, List.count_eq_zero]
  by_cases hlast : a ∈ owners
  · simp [hlast]
  · simp [hlast, or_comm]

theorem release (h : m.Tallies objects (a :: owners)) (hne : a ≠ 0) : (m.release a).Tallies objects owners := by
  obtain ⟨ha, hlive⟩ := h.known a List.mem_cons_self hne
  obtain ⟨-, hobject⟩ := h.object a ha
  have hcount := h.count_released hne
  have hdestroyed : ∀ b, b ∈ (m.release a).destroyed ↔ b ∈ m.destroyed ∨ b = a ∧ a ∉ owners :=
    fun b => h.mem_destroyed_release hne
  obtain ⟨journal, heq⟩ := m.release_eq a
  have hmemory : (m.release a).heap.memory = (m.storeCounted a (m.counted a).released).heap.memory := by rw [heq]
  refine ⟨hmemory ▸ Memory.write_sound h.sound, fun b hb => ⟨(h.object b hb).1, ?_⟩, fun b hb hne => ?_,
    fun b hb => ?_, fun b hb hlive' => ?_⟩
  · rw [Object, hmemory]
    exact (h.object b hb).2.write h.sound _ _
  · obtain ⟨hknown, hthere⟩ := h.known b (List.mem_cons_of_mem _ hb) hne
    refine ⟨hknown, fun hgone => ?_⟩
    rcases (hdestroyed b).mp hgone with hgone | ⟨rfl, hlast⟩
    · exact hthere hgone
    · exact hlast hb
  · rcases (hdestroyed b).mp hb with hb | ⟨rfl, -⟩
    · exact h.gone b hb
    · exact ha
  · have hbefore : b ∉ m.destroyed := fun hgone => hlive' ((hdestroyed b).mpr (.inl hgone))
    have hcounted : (m.release a).counted b = (m.storeCounted a (m.counted a).released).counted b :=
      congrArg (fun memory : Memory => Counted.ofBytes (memory.read b BoundType.shared.size)) hmemory
    rw [hcounted]
    by_cases hba : b = a
    · subst hba
      rw [count_storeCounted h.sound hobject, hcount]
      exact Nat.lt_of_le_of_lt (Nat.sub_le _ _) (m.count_lt b)
    · rw [counted_storeCounted h.sound hobject (h.object b hb).2 hba, h.count b hb hbefore,
        List.count_cons_of_ne (Ne.symm hba)]

/-- Pointers are stored beside the objects. -/
theorem writeBox (h : m.Tallies objects owners) (hu : m.Box u) {bytes : Bytes}
    (hlength : bytes.length ≤ Memory.pointerSize) : (m.writeBytes u bytes).Tallies objects owners :=
  h.of_counted (Memory.write_sound h.sound) (fun _ ha => ⟨ha.write h.sound _ _,
    congrArg Counted.ofBytes (ha.read_write hu h.sound hlength (ha.ne hu h.sound))⟩) rfl

/-- A new object has no owner yet. -/
theorem newCounted (h : m.Tallies objects owners) {owner : BlockOwner} (howner : owner ≠ .userdata) (value : Int)
    (hpos : m.heap.memory.frontier ≠ 0) :
    (m.newCounted owner value).2.Tallies ((m.newCounted owner value).1 :: objects) owners := by
  have hsize : (Counted.toBytes { value }).toArray.size = BoundType.shared.size := by
    rw [List.size_toArray, Counted.length_toBytes]
  have hnew : (m.newCounted owner value).2.Object m.heap.memory.frontier := by
    have hroom := Memory.Room.allocate_self (m := m.heap.memory) owner (Counted.toBytes { value }).toArray
    rwa [hsize, beq_false_of_ne howner] at hroom
  have hcount : ((m.newCounted owner value).2.counted m.heap.memory.frontier).count = 0 := by
    have hread := Memory.Room.read_allocate_self h.sound owner (Counted.toBytes { value }).toArray
    rw [hsize] at hread
    have hcounted : (m.newCounted owner value).2.counted m.heap.memory.frontier =
        .ofBytes (Counted.toBytes { value }) :=
      congrArg Counted.ofBytes hread
    rw [hcounted]
    exact Counted.count_ofBytes (Nat.two_pow_pos 64)
  have hunknown : m.heap.memory.frontier ∉ objects := fun hin =>
    absurd ((h.object _ hin).2.lt_frontier h.sound) (Nat.lt_irrefl _)
  refine ⟨Memory.allocate_sound h.sound, fun a ha => ?_, fun a ha hne => ?_,
    fun a ha => List.mem_cons_of_mem _ (h.gone a ha), fun a ha hlive => ?_⟩
  · rcases List.mem_cons.mp ha with rfl | ha
    · exact ⟨hpos, hnew⟩
    · exact ⟨(h.object a ha).1, (h.object a ha).2.allocate _ _⟩
  · obtain ⟨hknown, hlive⟩ := h.known a ha hne
    exact ⟨List.mem_cons_of_mem _ hknown, hlive⟩
  · rcases List.mem_cons.mp ha with rfl | ha
    · refine hcount.trans (List.count_eq_zero.mpr fun hin => hunknown ?_).symm
      exact (h.known _ hin hpos).1
    · have hold : (m.newCounted owner value).2.counted a = m.counted a :=
        congrArg Counted.ofBytes ((h.object a ha).2.read_allocate h.sound _ _)
      rw [hold]
      exact h.count a ha hlive

end Tallies

end Machine

end ScriptHost
