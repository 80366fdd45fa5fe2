import ScriptHost.Heap
import ScriptHost.Proofs.Arena
import ScriptHost.Proofs.Memory

/-! # The heap invariant

Arenas keep their free slots, blocks lie apart, and every userdata has a serial, a flag and a block
of its own. Outside a cycle of the collector the heap changes in a few ways only, and each of them
keeps the invariant.
-/

namespace ScriptHost.Heap

variable {β : Type} {h h' : Heap β}

structure Sound (h : Heap β) : Prop where
  tables : h.tables.Sound
  functions : h.functions.Sound
  userdata : h.userdata.Sound
  boxed : h.boxed.Sound
  memory : h.memory.Sound
  serial_lt : ∀ {slot u}, h.userdata? slot = some u → u.serial < h.nextSerial
  serial_inj : ∀ {slot slot' u u'}, h.userdata? slot = some u → h.userdata? slot' = some u' →
    u.serial = u'.serial → slot = slot'
  flagged : ∀ {slot u}, h.userdata? slot = some u → slot < h.finalized.size
  block : ∀ {slot u}, h.userdata? slot = some u → ∃ b ∈ h.memory.blocks,
    b.base = u.address ∧ b.owner = .userdata ∧ b.bytes.size = u.size
  address_inj : ∀ {slot slot' u u'}, h.userdata? slot = some u → h.userdata? slot' = some u' →
    u.address = u'.address → slot = slot'

/-- What a step of the heap outside the collector can do. -/
inductive Change (h : Heap β) : Heap β → Prop where
  | newTable : Change h h.newTable.2
  | newFunction (f) : Change h (h.newFunction f).2
  | newUserdata (size) : Change h (h.newUserdata size).2
  | newBoxed (i) : Change h (h.newBoxed i).2
  | entry (slot key v) : Change h (h.modifyTable slot fun t => t.set key v)
  | tableMeta (slot metatable) : Change h (h.modifyTable slot fun t => { t with metatable })
  | userMeta (slot metatable) : Change h (h.modifyUserdata slot fun u => { u with metatable })
  | userValue (slot userValue) : Change h (h.modifyUserdata slot fun u => { u with userValue })
  | upvalue (slot position v) : Change h (h.setUpvalue slot position v)
  | allocate (owner bytes) : Change h { h with memory := (h.memory.allocate owner bytes).2 }
  | write (a bytes) : Change h { h with memory := h.memory.write a bytes }

theorem sound_empty : Sound ({} : Heap β) := by
  refine ⟨Arena.sound_empty, Arena.sound_empty, Arena.sound_empty, Arena.sound_empty,
    Memory.sound_empty, ?_, ?_, ?_, ?_, ?_⟩ <;> simp [userdata?, Arena.get?]

/-! ## Heaps with the userdata of another -/

/-- Every userdata was there before, with the same serial and the same block. -/
def Inherits (h h' : Heap β) : Prop :=
  ∀ {slot u'}, h'.userdata? slot = some u' →
    ∃ u, h.userdata? slot = some u ∧ u'.serial = u.serial ∧ u'.address = u.address ∧ u'.size = u.size

theorem Inherits.of_eq (heq : h'.userdata = h.userdata) : Inherits h h' := by
  intro slot u' hu'
  exact ⟨u', by rw [userdata?, ← heq]; exact hu', rfl, rfl, rfl⟩

/-- A heap whose userdata are all inherited keeps the invariant if its arenas and its memory do and
    the blocks of the userdata are still there. -/
theorem Sound.inherit (hs : h.Sound) (hu : Inherits h h') (tables : h'.tables.Sound)
    (functions : h'.functions.Sound) (userdata : h'.userdata.Sound) (boxed : h'.boxed.Sound)
    (memory : h'.memory.Sound) (hserial : h'.nextSerial = h.nextSerial)
    (hsize : h'.finalized.size = h.finalized.size)
    (hblock : ∀ {slot u b}, h'.userdata? slot = some u → b ∈ h.memory.blocks →
      b.base = u.address → ∃ c ∈ h'.memory.blocks, c.base = b.base ∧ c.owner = b.owner ∧
        c.bytes.size = b.bytes.size) : h'.Sound := by
  refine ⟨tables, functions, userdata, boxed, memory, ?_, ?_, ?_, ?_, ?_⟩
  · intro slot u' hu'
    obtain ⟨u, hget, hser, -, -⟩ := hu hu'
    rw [hser, hserial]
    exact hs.serial_lt hget
  · intro s t u' v' hu' hv' heq
    obtain ⟨u, hget, hser, -, -⟩ := hu hu'
    obtain ⟨v, hget', hser', -, -⟩ := hu hv'
    exact hs.serial_inj hget hget' (by rw [← hser, ← hser', heq])
  · intro slot u' hu'
    obtain ⟨u, hget, -, -, -⟩ := hu hu'
    rw [hsize]
    exact hs.flagged hget
  · intro slot u' hu'
    obtain ⟨u, hget, -, haddr, hsz⟩ := hu hu'
    obtain ⟨b, hb, hbase, howner, hbytes⟩ := hs.block hget
    obtain ⟨c, hc, hcbase, hcowner, hcbytes⟩ := hblock hu' hb (hbase.trans haddr.symm)
    exact ⟨c, hc, by rw [hcbase, hbase, haddr], by rw [hcowner, howner],
      by rw [hcbytes, hbytes, hsz]⟩
  · intro s t u' v' hu' hv' heq
    obtain ⟨u, hget, -, haddr, -⟩ := hu hu'
    obtain ⟨v, hget', -, haddr', -⟩ := hu hv'
    exact hs.address_inj hget hget' (by rw [← haddr, ← haddr', heq])

theorem Sound.of_eq (hs : h.Sound) (tables : h'.tables.Sound) (functions : h'.functions.Sound)
    (boxed : h'.boxed.Sound) (huserdata : h'.userdata = h.userdata)
    (hmemory : h'.memory = h.memory) (hserial : h'.nextSerial = h.nextSerial)
    (hflags : h'.finalized = h.finalized) : h'.Sound :=
  hs.inherit (Inherits.of_eq huserdata) tables functions (huserdata ▸ hs.userdata) boxed
    (hmemory ▸ hs.memory) hserial (by rw [hflags])
    fun {_ _ b} _ hb _ => ⟨b, hmemory ▸ hb, rfl, rfl, rfl⟩

theorem sound_setFinalized {slot : Nat} (hs : h.Sound) : (h.setFinalized slot).Sound :=
  hs.inherit (Inherits.of_eq rfl) hs.tables hs.functions hs.userdata hs.boxed hs.memory rfl
    (Array.size_setIfInBounds ..) fun {_ _ b} _ hb _ => ⟨b, hb, rfl, rfl, rfl⟩

theorem function?_newFunction (hs : h.Sound) (f : Closure β) :
    (h.newFunction f).2.function? (h.newFunction f).1 = some f :=
  (Arena.get?_insert hs.functions).trans (if_pos rfl)

/-! ## New userdata -/

variable {size slot s : Nat}

theorem newUserdata_userdata? (size s : Nat) (hs : h.Sound) :
    (h.newUserdata size).2.userdata? s =
      if s = (h.newUserdata size).1 then
        some { serial := h.nextSerial, address := h.memory.frontier, size }
      else h.userdata? s :=
  Arena.get?_insert hs.userdata

theorem newUserdata_slot (hs : h.Sound) : h.userdata? (h.newUserdata size).1 = none :=
  Arena.get?_insert_slot hs.userdata

private theorem getD_clearFlag (flags : Array Bool) (slot s : Nat) :
    ((if slot < flags.size then flags.setIfInBounds slot false
      else flags ++ Array.replicate (slot + 1 - flags.size) false)[s]?).getD false =
      if s = slot then false else (flags[s]?).getD false := by
  by_cases hlt : slot < flags.size
  · rw [if_pos hlt, Array.getElem?_setIfInBounds]
    by_cases hs : s = slot
    · simp [hs, hlt]
    · simp [hs, Ne.symm hs]
  · rw [if_neg hlt, Array.getElem?_append]
    by_cases hs : s < flags.size
    · have hne : s ≠ slot := by omega
      simp [hs, hne]
    · have hnone : flags[s]? = none := Array.getElem?_eq_none (Nat.not_lt.mp hs)
      simp only [hs, hnone, if_false, Array.getElem?_replicate]
      split <;> split <;> rfl

/-- Every slot keeps its flag except that of the new userdata. -/
theorem newUserdata_isFinalized :
    (h.newUserdata size).2.isFinalized s =
      if s = (h.newUserdata size).1 then false else h.isFinalized s :=
  getD_clearFlag _ _ _

private theorem lt_size_clearFlag (flags : Array Bool) {slot s : Nat}
    (hs : s < flags.size ∨ s = slot) :
    s < (if slot < flags.size then flags.setIfInBounds slot false
      else flags ++ Array.replicate (slot + 1 - flags.size) false).size := by
  split
  · rw [Array.size_setIfInBounds]
    omega
  · rw [Array.size_append, Array.size_replicate]
    omega

theorem newUserdata_flagged (hs : s < h.finalized.size ∨ s = (h.newUserdata size).1) :
    s < (h.newUserdata size).2.finalized.size :=
  lt_size_clearFlag _ hs

theorem newUserdata_sound (hs : h.Sound) : (h.newUserdata size).2.Sound := by
  have hget := fun s => newUserdata_userdata? size s hs
  have hold : ∀ {s u}, (h.newUserdata size).2.userdata? s = some u →
      s = (h.newUserdata size).1 ∧
        u = { serial := h.nextSerial, address := h.memory.frontier, size } ∨
      s ≠ (h.newUserdata size).1 ∧ h.userdata? s = some u := by
    intro s u hu
    rw [hget] at hu
    split at hu
    · rename_i heq
      exact .inl ⟨heq, (Option.some.inj hu).symm⟩
    · rename_i hne
      exact .inr ⟨hne, hu⟩
  have hserial : ∀ {s u}, h.userdata? s = some u → u.serial ≠ h.nextSerial :=
    fun hu => Nat.ne_of_lt (hs.serial_lt hu)
  have haddress : ∀ {s u}, h.userdata? s = some u → u.address ≠ h.memory.frontier := by
    intro s u hu heq
    obtain ⟨b, hb, hbase, -, -⟩ := hs.block hu
    have hbelow := hs.memory.below b hb
    rw [hbase, heq] at hbelow
    exact absurd (Nat.lt_of_lt_of_le (Nat.lt_add_of_pos_right b.extent_pos) hbelow)
      (Nat.lt_irrefl _)
  refine ⟨hs.tables, hs.functions, Arena.insert_sound hs.userdata, hs.boxed,
    Memory.allocate_sound hs.memory, ?_, ?_, ?_, ?_, ?_⟩
  · intro s u hu
    rcases hold hu with ⟨-, rfl⟩ | ⟨-, hu⟩
    · exact Nat.lt_succ_self _
    · exact Nat.lt_succ_of_lt (hs.serial_lt hu)
  · intro s t u v hu hv heq
    rcases hold hu with ⟨rfl, rfl⟩ | ⟨-, hu⟩ <;> rcases hold hv with ⟨rfl, rfl⟩ | ⟨-, hv⟩
    · rfl
    · exact absurd heq.symm (hserial hv)
    · exact absurd heq (hserial hu)
    · exact hs.serial_inj hu hv heq
  · intro s u hu
    rcases hold hu with ⟨rfl, -⟩ | ⟨-, hu⟩
    · exact newUserdata_flagged (.inr rfl)
    · exact newUserdata_flagged (.inl (hs.flagged hu))
  · intro s u hu
    rcases hold hu with ⟨-, rfl⟩ | ⟨-, hu⟩
    · exact ⟨_, List.mem_cons_self, rfl, rfl, Array.size_replicate⟩
    · obtain ⟨b, hb, hrest⟩ := hs.block hu
      exact ⟨b, List.mem_cons_of_mem _ hb, hrest⟩
  · intro s t u v hu hv heq
    rcases hold hu with ⟨rfl, rfl⟩ | ⟨-, hu⟩ <;> rcases hold hv with ⟨rfl, rfl⟩ | ⟨-, hv⟩
    · rfl
    · exact absurd heq.symm (haddress hv)
    · exact absurd heq (haddress hu)
    · exact hs.address_inj hu hv heq

/-! ## Changes -/

theorem Inherits.modify (f : Userdata → Userdata)
    (hf : ∀ u, (f u).serial = u.serial ∧ (f u).address = u.address ∧ (f u).size = u.size) :
    Inherits h (h.modifyUserdata slot f) := by
  intro s u' hu'
  rw [userdata?, modifyUserdata, Arena.get?_modify] at hu'
  split at hu'
  · obtain ⟨u, hu, rfl⟩ := Option.map_eq_some_iff.mp hu'
    exact ⟨u, hu, hf u⟩
  · exact ⟨u', hu', rfl, rfl, rfl⟩

theorem Sound.modifyUserdata (hs : h.Sound) (f : Userdata → Userdata)
    (hf : ∀ u, (f u).serial = u.serial ∧ (f u).address = u.address ∧ (f u).size = u.size) :
    (h.modifyUserdata slot f).Sound :=
  hs.inherit (Inherits.modify f hf) hs.tables hs.functions (Arena.modify_sound hs.userdata)
    hs.boxed hs.memory rfl rfl fun {_ _ b} _ hb _ => ⟨b, hb, rfl, rfl, rfl⟩

theorem Change.sound (hc : Change h h') (hs : h.Sound) : h'.Sound := by
  cases hc with
  | newTable =>
      exact hs.of_eq (Arena.insert_sound hs.tables) hs.functions hs.boxed rfl rfl rfl rfl
  | newFunction f =>
      exact hs.of_eq hs.tables (Arena.insert_sound hs.functions) hs.boxed rfl rfl rfl rfl
  | newUserdata size => exact newUserdata_sound hs
  | newBoxed i =>
      exact hs.of_eq hs.tables hs.functions (Arena.insert_sound hs.boxed) rfl rfl rfl rfl
  | entry | tableMeta =>
      exact hs.of_eq (Arena.modify_sound hs.tables) hs.functions hs.boxed rfl rfl rfl rfl
  | userMeta | userValue => exact hs.modifyUserdata _ fun u => ⟨rfl, rfl, rfl⟩
  | upvalue =>
      exact hs.of_eq hs.tables (Arena.modify_sound hs.functions) hs.boxed rfl rfl rfl rfl
  | allocate owner bytes =>
      exact hs.inherit (Inherits.of_eq rfl) hs.tables hs.functions hs.userdata hs.boxed
        (Memory.allocate_sound hs.memory) rfl rfl
        fun {_ _ b} _ hb _ => ⟨b, List.mem_cons_of_mem _ hb, rfl, rfl, rfl⟩
  | write a bytes =>
      obtain ⟨f, hblocks, hf⟩ := Memory.write_blocks h.memory a bytes
      refine hs.inherit (Inherits.of_eq rfl) hs.tables hs.functions hs.userdata hs.boxed
        (Memory.write_sound hs.memory) rfl rfl fun {_ _ b} _ hb _ => ?_
      obtain ⟨hsize, howner⟩ := (hf b).2 hb hs.memory
      exact ⟨f b, hblocks ▸ List.mem_map_of_mem hb, (hf b).1, howner, hsize⟩

/-! ## Integers -/

theorem ofInt_inline (h : Heap β) {i : Int} (hi : Value.fitsInline i = true) : h.ofInt i = (.int i, h) := by
  rw [ofInt, if_pos hi]

theorem ofInt_newBoxed (h : Heap β) {i : Int} (hi : Value.fitsInline i = false) :
    h.ofInt i = (.boxed (h.newBoxed i).1, (h.newBoxed i).2) := by
  simp [ofInt, hi]

end ScriptHost.Heap
