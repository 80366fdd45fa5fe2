import Mathlib.Data.List.Perm.Subperm
import ScriptHost.Proofs.Answers
import ScriptHost.Proofs.Invisibility
import ScriptHost.Proofs.Tally

/-! # Boxed instances own their targets

An instance is a userdata that still needs its finalizer. The pointer in its block is one owner of the
object it leads to. Assigning another target takes and gives up one reference, in this order, and a
finalizer gives up the last one of its instance; cycles take instances away that own nothing any more.
-/

namespace ScriptHost

namespace Machine

variable {m m' : Machine} {objects owners held : List Address} {slot s : Nat} {u v : Userdata}
  {block new : Address} {replacing : Bool}

/-! ## Assigning a target -/

/-- Takes a reference to the new target before it gives up the old one. -/
def exchange (m : Machine) (old new : Address) (replacing : Bool) : Machine :=
  let m := if new ≠ 0 then m.retain new else m
  if replacing && old ≠ 0 then m.release old else m

/-- Points the box at an address to a new target. -/
def reassign (m : Machine) (block new : Address) (replacing : Bool) : Machine :=
  (m.exchange (m.heap.memory.readPointer block) new replacing).writeBytes block
    (Bytes.ofNat new Memory.pointerSize)

theorem exchange_eq (m : Machine) (old new : Address) (replacing : Bool) : ∃ memory destroyed journal,
    m.exchange old new replacing = { m with heap := { m.heap with memory }, destroyed, journal } := by
  have hretain : ∃ memory, (if new ≠ 0 then m.retain new else m) =
      { m with heap := { m.heap with memory } } := by
    split
    · exact ⟨_, rfl⟩
    · exact ⟨m.heap.memory, rfl⟩
  obtain ⟨memory, hmemory⟩ := hretain
  unfold exchange
  dsimp only
  rw [hmemory]
  split
  · obtain ⟨journal, hrelease⟩ := release_eq { m with heap := { m.heap with memory } } old
    rw [hrelease]
    exact ⟨_, _, _, rfl⟩
  · exact ⟨_, _, _, rfl⟩

theorem reassign_eq (m : Machine) (block new : Address) (replacing : Bool) : ∃ memory destroyed journal,
    m.reassign block new replacing = { m with heap := { m.heap with memory }, destroyed, journal } := by
  obtain ⟨memory, destroyed, journal, heq⟩ := m.exchange_eq (m.heap.memory.readPointer block) new replacing
  rw [reassign, heq]
  exact ⟨_, _, _, rfl⟩

theorem sound_reassign (hm : m.heap.Sound) : (m.reassign block new replacing).heap.Sound := by
  have hwrite : ∀ {m : Machine} (a : Address) (bytes : Bytes), m.heap.Sound → (m.writeBytes a bytes).heap.Sound :=
    fun a bytes hm => (Heap.Change.write a bytes).sound hm
  have hretained : (if new ≠ 0 then m.retain new else m).heap.Sound := by
    split
    · exact hwrite _ _ hm
    · exact hm
  refine hwrite _ _ ?_
  unfold exchange
  dsimp only
  split
  · obtain ⟨journal, heq⟩ := release_eq (if new ≠ 0 then m.retain new else m) (m.heap.memory.readPointer block)
    rw [heq]
    exact hwrite _ _ hretained
  · exact hretained

/-- Boxes keep their pointers when references are counted. -/
theorem box_storeCounted {a b : Address} {c : Counted} (hm : m.heap.memory.Sound) (ha : m.Object a) (hb : m.Box b) :
    (m.storeCounted a c).Box b ∧
      (m.storeCounted a c).heap.memory.readPointer b = m.heap.memory.readPointer b :=
  ⟨hb.write hm _ _, readPointer_storeCounted hm ha hb⟩

namespace Tallies

variable {old a b : Address}

theorem box_release (h : m.Tallies objects (a :: owners)) (hne : a ≠ 0) (hb : m.Box b) :
    (m.release a).Box b ∧ (m.release a).heap.memory.readPointer b = m.heap.memory.readPointer b := by
  obtain ⟨journal, heq⟩ := m.release_eq a
  rw [heq]
  exact box_storeCounted h.sound (h.object a (h.known a List.mem_cons_self hne).1).2 hb

/-- The old target loses an owner and the new one gains it. An old target that is not given up is null. -/
theorem exchange (h : m.Tallies objects (old :: owners))
    (hnew : new = 0 ∨ new ∈ objects ∧ new ∉ m.destroyed)
    (hold : replacing = true ∨ old = 0) (hfits : (old :: owners).count new + 1 < 2 ^ 64) :
    (m.exchange old new replacing).Tallies objects (new :: owners) ∧
      (∀ b, b ∈ (m.exchange old new replacing).destroyed ↔
        b ∈ m.destroyed ∨ b ≠ 0 ∧ b = old ∧ b ∉ new :: owners) ∧
      ∀ b, m.Box b → (m.exchange old new replacing).Box b ∧
        (m.exchange old new replacing).heap.memory.readPointer b = m.heap.memory.readPointer b := by
  -- The reference to the new target is taken first.
  have hretained : ∃ m₁, (if new ≠ 0 then m.retain new else m) = m₁ ∧
      m₁.Tallies objects (new :: old :: owners) ∧ m₁.destroyed = m.destroyed ∧
      ∀ b, m.Box b → m₁.Box b ∧ m₁.heap.memory.readPointer b = m.heap.memory.readPointer b := by
    refine ⟨_, rfl, ?_⟩
    by_cases hnull : new = 0
    · subst hnull
      rw [if_neg (fun hne => hne rfl)]
      exact ⟨cons_null.mpr h, rfl, fun _ hb => ⟨hb, rfl⟩⟩
    · obtain ⟨hin, hlive⟩ := hnew.resolve_left hnull
      rw [if_pos hnull]
      exact ⟨h.retain hin hlive hfits, rfl, fun _ hb => box_storeCounted h.sound (h.object _ hin).2 hb⟩
  obtain ⟨m₁, heq, htallies, hdestroyed, hboxes⟩ := hretained
  have hswapped : m₁.Tallies objects (old :: new :: owners) := htallies.perm (.swap _ _ _)
  unfold Machine.exchange
  dsimp only
  rw [heq]
  by_cases hnull : old = 0
  · subst hnull
    rw [if_neg (by simp)]
    refine ⟨cons_null.mp hswapped, fun b => ?_, hboxes⟩
    rw [hdestroyed]
    exact (or_iff_left fun hgone => hgone.1 hgone.2.1).symm
  · rw [if_pos (by simp [hold.resolve_right hnull, hnull])]
    refine ⟨hswapped.release hnull, fun b => ?_, fun b hb => ?_⟩
    · rw [hswapped.mem_destroyed_release hnull, hdestroyed]
      refine or_congr_right ⟨?_, ?_⟩
      · rintro ⟨rfl, hlast⟩
        exact ⟨hnull, rfl, hlast⟩
      · rintro ⟨-, rfl, hlast⟩
        exact ⟨rfl, hlast⟩
    · obtain ⟨hb₁, hpointer⟩ := hboxes b hb
      obtain ⟨hb₂, hpointer'⟩ := hswapped.box_release hnull hb₁
      exact ⟨hb₂, hpointer'.trans hpointer⟩

/-- An assignment makes the box an owner of the new target instead of the old one. -/
theorem reassign (h : m.Tallies objects (m.heap.memory.readPointer block :: owners)) (hblock : m.Box block)
    (hnew : new = 0 ∨ new ∈ objects ∧ new ∉ m.destroyed)
    (hold : replacing = true ∨ m.heap.memory.readPointer block = 0) (haddress : new < 2 ^ 64)
    (hfits : (m.heap.memory.readPointer block :: owners).count new + 1 < 2 ^ 64) :
    (m.reassign block new replacing).Tallies objects (new :: owners) ∧
      (∀ b, b ∈ (m.reassign block new replacing).destroyed ↔
        b ∈ m.destroyed ∨ b ≠ 0 ∧ b = m.heap.memory.readPointer block ∧ b ∉ new :: owners) ∧
      ∀ b, m.Box b → (m.reassign block new replacing).heap.memory.readPointer b =
        if b = block then new else m.heap.memory.readPointer b := by
  obtain ⟨htallies, hdestroyed, hboxes⟩ := h.exchange hnew hold hfits
  have hlength : (Bytes.ofNat new Memory.pointerSize).length = Memory.pointerSize := Bytes.length_ofNat _ _
  have hbox := (hboxes block hblock).1
  refine ⟨htallies.writeBox hbox (Nat.le_of_eq hlength), hdestroyed, fun b hb => ?_⟩
  obtain ⟨hb₁, hpointer⟩ := hboxes b hb
  by_cases hsame : b = block
  · subst hsame
    rw [if_pos rfl]
    have hself := hbox.read_write_self htallies.sound (Nat.le_of_eq hlength)
    rw [hlength] at hself
    exact (congrArg Bytes.toNat hself).trans (Bytes.toNat_ofNat_of_lt haddress)
  · rw [if_neg hsame, ← hpointer]
    exact congrArg Bytes.toNat (hb₁.read_write hbox htallies.sound (Nat.le_of_eq hlength) hsame)

end Tallies

/-! ## Instances -/

/-- The userdata that still need their finalizer, by slot. -/
def instances (m : Machine) : List (Nat × Userdata) :=
  m.heap.userdata.occupied.filter fun (slot, u) =>
    !m.heap.isFinalized slot && m.heap.hasMetaEntry u Metafield.finalizer.id

/-- What the block of an instance points to. -/
def target (m : Machine) (u : Userdata) : Address := m.heap.memory.readPointer u.address

/-- The targets of all instances, once for each. -/
def targets (m : Machine) : List Address := m.instances.map fun i => m.target i.2

theorem mem_instances : (slot, u) ∈ m.instances ↔ m.heap.userdata? slot = some u ∧
    m.heap.isFinalized slot = false ∧ m.heap.hasMetaEntry u Metafield.finalizer.id = true := by
  simp [instances, Arena.mem_occupied, Heap.userdata?]

theorem instances_nodup (m : Machine) : m.instances.Nodup := Arena.occupied_nodup.filter _

/-- An instance and the others, which have other slots. -/
theorem instances_split (hin : (slot, u) ∈ m.instances) : ∃ others : List (Nat × Userdata),
    m.instances.Perm ((slot, u) :: others) ∧ others.Nodup ∧
      ∀ s v, (s, v) ∈ others ↔ s ≠ slot ∧ (s, v) ∈ m.instances := by
  obtain ⟨first, last, heq⟩ := List.append_of_mem hin
  have hperm : m.instances.Perm ((slot, u) :: (first ++ last)) := heq ▸ List.perm_middle
  have hnodup := hperm.nodup_iff.mp m.instances_nodup
  rw [List.nodup_cons] at hnodup
  refine ⟨first ++ last, hperm, hnodup.2, fun s v => ⟨fun hs => ?_, fun hother => ?_⟩⟩
  · have hthere := hperm.mem_iff.mpr (List.mem_cons_of_mem _ hs)
    refine ⟨fun hsame => ?_, hthere⟩
    subst hsame
    have hsame : v = u := Option.some.inj ((mem_instances.mp hthere).1.symm.trans (mem_instances.mp hin).1)
    exact hnodup.1 (hsame ▸ hs)
  · obtain ⟨hne, hs⟩ := hother
    refine (List.mem_cons.mp (hperm.mem_iff.mp hs)).resolve_left fun heq => hne ?_
    exact congrArg Prod.fst heq

theorem isFinalized_setFinalized {h : Heap Native} (hs : slot < h.finalized.size) :
    (h.setFinalized slot).isFinalized s = if s = slot then true else h.isFinalized s := by
  rw [Heap.isFinalized, Heap.setFinalized, Array.getElem?_setIfInBounds]
  by_cases hsame : s = slot
  · subst hsame
    simp [hs]
  · rw [if_neg (Ne.symm hsame), if_neg hsame]
    rfl

theorem instances_congr (userdata : m'.heap.userdata = m.heap.userdata)
    (finalized : m'.heap.finalized = m.heap.finalized) (tables : m'.heap.tables = m.heap.tables) :
    m'.instances = m.instances := by
  unfold instances Heap.isFinalized Heap.hasMetaEntry
  rw [userdata, finalized, tables]

/-- The owners of objects: one instance, the other instances, and the host. -/
theorem owners_perm {others : List (Nat × Userdata)} (hperm : m.instances.Perm ((slot, u) :: others)) :
    (m.targets ++ held).Perm (m.target u :: (others.map (fun i => m.target i.2) ++ held)) :=
  List.Perm.append_right held (List.Perm.map (fun i : Nat × Userdata => m.target i.2) hperm)

/-- The block of a userdata. -/
theorem room_userdata (hm : m.heap.Sound) (hu : m.heap.userdata? slot = some u) :
    m.heap.memory.Room true u.address u.size := by
  obtain ⟨b, hb, hbase, howner, hsize⟩ := hm.block hu
  exact ⟨b, hb, hbase, Nat.le_of_eq hsize.symm, by simp [howner]⟩

/-! ## Conservation -/

/-- A metatable whose finalizer gives up the target, and which belongs to a class other than that of objects
    that instances hold themselves. -/
structure SharedClass (m : Machine) (mt : Nat) : Prop where
  finalizer : ∃ t g fn, m.heap.tables.get? mt = some t ∧ t.get (.string Metafield.finalizer.id) = .function g ∧
    m.heap.function? g = some fn ∧ fn.body.behaviour = .code (.hook .releaseTarget)
  marker : ∃ id : Nat, m.strings.strings[id]? = some (Utf8.encode Class.markerField) ∧
    ((m.heap.table mt).get (.string id)).kind = .boolean
  name : ∀ id : Nat, (m.heap.table m.registry).get (.string id) = .table mt →
    ∃ bytes, m.strings.strings[id]? = some bytes ∧ bytes ≠ Utf8.encode BoundType.shared.typeName

/-- A userdata of such a class, with room for a pointer in its block. -/
def Boxed (m : Machine) (u : Userdata) : Prop :=
  Memory.pointerSize ≤ u.size ∧ ∃ mt, u.metatable = some mt ∧ m.SharedClass mt

/-- The count of every object that is not destroyed is the number of its owners: of the instances that point
    to it, and of the references that the host holds itself. -/
structure Conserves (m : Machine) (objects held : List Address) : Prop where
  sound : m.heap.Sound
  boxed : ∀ slot u, (slot, u) ∈ m.instances → m.Boxed u
  tallies : m.Tallies objects (m.targets ++ held)

/-- Of the objects, exactly those are destroyed on the way from a machine to another that lose their last
    owner. -/
def Drops (m m' : Machine) (objects held held' : List Address) : Prop :=
  ∀ a ∈ objects, a ∈ m'.destroyed ↔ a ∈ m.destroyed ∨ a ∈ m.targets ++ held ∧ a ∉ m'.targets ++ held'

/-- Addresses and counts fit into 64 bits, with some room left. -/
def Fits (m : Machine) (held : List Address) : Prop := m.heap.memory.frontier + held.length + 64 ≤ 2 ^ 64

theorem SharedClass.of_eq {mt : Nat} (h : m.SharedClass mt) (tables : m'.heap.tables = m.heap.tables)
    (functions : m'.heap.functions = m.heap.functions) (registry : m'.registry = m.registry)
    (strings : m.strings.Extends m'.strings) : m'.SharedClass mt := by
  have htable : ∀ slot, m'.heap.table slot = m.heap.table slot := fun slot => by rw [Heap.table, Heap.table, tables]
  obtain ⟨t, g, fn, ht, hg, hfn, hrelease⟩ := h.finalizer
  obtain ⟨id, hid, hmarker⟩ := h.marker
  refine ⟨⟨t, g, fn, tables ▸ ht, hg, ?_, hrelease⟩, ⟨id, strings id _ hid, (htable mt) ▸ hmarker⟩,
    fun id hid => ?_⟩
  · rw [Heap.function?, functions]
    exact hfn
  · rw [htable, registry] at hid
    obtain ⟨bytes, hbytes, hne⟩ := h.name id hid
    exact ⟨bytes, strings id _ hbytes, hne⟩

theorem Boxed.of_eq (h : m.Boxed u) (tables : m'.heap.tables = m.heap.tables)
    (functions : m'.heap.functions = m.heap.functions) (registry : m'.registry = m.registry)
    (strings : m.strings.Extends m'.strings) : m'.Boxed u := by
  obtain ⟨hsize, mt, hmt, hclass⟩ := h
  exact ⟨hsize, mt, hmt, hclass.of_eq tables functions registry strings⟩

namespace Conserves

variable (h : m.Conserves objects held)

include h

theorem box (hin : (slot, u) ∈ m.instances) : m.Box u.address := by
  obtain ⟨b, hb, hbase, hsize, howner⟩ := room_userdata h.sound (mem_instances.mp hin).1
  exact ⟨b, hb, hbase, Nat.le_trans (h.boxed slot u hin).1 hsize, howner⟩

theorem address_ne (hin : (slot, u) ∈ m.instances) (hin' : (s, v) ∈ m.instances) (hne : s ≠ slot) :
    v.address ≠ u.address :=
  fun heq => hne (h.sound.address_inj (mem_instances.mp hin').1 (mem_instances.mp hin).1 heq)

/-- There are no more instances than addresses. -/
theorem length_instances : m.instances.length ≤ m.heap.memory.frontier := by
  have hnodup : (m.instances.map fun i => i.2.address).Nodup := by
    refine List.Nodup.map_on (fun i hi j hj heq => ?_) m.instances_nodup
    have hi' := (mem_instances.mp hi).1
    have hj' := (mem_instances.mp hj).1
    have hslot := h.sound.address_inj hi' hj' heq
    rw [hslot, hj'] at hi'
    exact Prod.ext hslot (Option.some.inj hi').symm
  have hsub : (m.instances.map fun i => i.2.address) ⊆ List.range m.heap.memory.frontier := by
    intro a ha
    obtain ⟨⟨slot, u⟩, hin, rfl⟩ := List.mem_map.mp ha
    exact List.mem_range.mpr ((h.box hin).lt_frontier h.sound.memory)
  have hle := (hnodup.subperm hsub).length_le
  rwa [List.length_map, List.length_range] at hle

theorem count_lt (hfits : m.Fits held) (a : Address) : (m.targets ++ held).count a + 1 < 2 ^ 64 := by
  have hcount : (m.targets ++ held).count a ≤ m.instances.length + held.length := by
    have hle := List.count_le_length (a := a) (l := m.targets ++ held)
    rwa [List.length_append, targets, List.length_map] at hle
  have hlength := h.length_instances
  unfold Fits at hfits
  grind

theorem address_lt (hfits : m.Fits held) {a : Address} (ha : a ∈ objects) : a < 2 ^ 64 := by
  have hlt := (h.tallies.object a ha).2.lt_frontier h.sound.memory
  unfold Fits at hfits
  grind

/-- The other instances have blocks of their own. -/
theorem map_target {others : List (Nat × Userdata)} (hin : (slot, u) ∈ m.instances)
    (hothers : ∀ s v, (s, v) ∈ others ↔ s ≠ slot ∧ (s, v) ∈ m.instances)
    (hpointers : ∀ b, m.Box b → m'.heap.memory.readPointer b =
      if b = u.address then new else m.heap.memory.readPointer b) :
    others.map (fun i => m'.target i.2) = others.map fun i => m.target i.2 := by
  refine List.map_congr_left fun i hi => ?_
  obtain ⟨hne, hi⟩ := (hothers i.1 i.2).mp hi
  rw [target, hpointers _ (h.box hi), if_neg (h.address_ne hin hi hne)]
  rfl

/-- Another target is assigned to an instance that owns its target, or has none. -/
theorem reassign (hin : (slot, u) ∈ m.instances) (hnew : new = 0 ∨ new ∈ objects ∧ new ∉ m.destroyed)
    (hold : replacing = true ∨ m.target u = 0) (hfits : m.Fits held) :
    (m.reassign u.address new replacing).Conserves objects held ∧
      m.Drops (m.reassign u.address new replacing) objects held held := by
  obtain ⟨others, hperm, -, hothers⟩ := instances_split hin
  let rest := others.map (fun i => m.target i.2) ++ held
  have hbox := h.box hin
  have htallies : m.Tallies objects (m.target u :: rest) := h.tallies.perm (owners_perm hperm)
  have haddress : new < 2 ^ 64 := by
    rcases hnew with rfl | ⟨hobject, -⟩
    · exact Nat.two_pow_pos 64
    · exact h.address_lt hfits hobject
  have hcount : (m.target u :: rest).count new + 1 < 2 ^ 64 :=
    (List.Perm.count_eq (owners_perm hperm) new) ▸ h.count_lt hfits new
  obtain ⟨hafter, hdestroyed, hpointers⟩ := htallies.reassign hbox hnew hold haddress hcount
  obtain ⟨memory, destroyed, journal, heq⟩ := m.reassign_eq u.address new replacing
  have hinstances : (m.reassign u.address new replacing).instances = m.instances := by
    rw [heq]
    exact instances_congr rfl rfl rfl
  have htargets : ((m.reassign u.address new replacing).targets ++ held).Perm (new :: rest) := by
    have hself : (m.reassign u.address new replacing).target u = new := by
      rw [target, hpointers _ hbox, if_pos rfl]
    have hsplit : (m.reassign u.address new replacing).instances.Perm ((slot, u) :: others) := hinstances ▸ hperm
    have hall : ((m.reassign u.address new replacing).targets ++ held).Perm _ := owners_perm hsplit
    rwa [hself, h.map_target hin hothers hpointers] at hall
  refine ⟨⟨sound_reassign h.sound, fun s v hs => ?_, hafter.perm htargets.symm⟩, fun a ha => ?_⟩
  · rw [hinstances] at hs
    rw [heq]
    exact (h.boxed s v hs).of_eq rfl rfl rfl (.refl _)
  · rw [hdestroyed, htargets.mem_iff, (owners_perm hperm).mem_iff]
    have hne := (h.tallies.object a ha).1
    refine or_congr_right ⟨fun hlost => ⟨?_, hlost.2.2⟩, fun hlost => ⟨hne, ?_, hlost.2⟩⟩
    · exact hlost.2.1 ▸ List.mem_cons_self
    · exact (List.mem_cons.mp hlost.1).resolve_right fun hrest => hlost.2 (List.mem_cons_of_mem _ hrest)

/-- What the turn of an instance does to heap and objects: it needs its finalizer no more, and gives its target
    up. -/
theorem turn (hin : (slot, u) ∈ m.instances) (hfits : m.Fits held) :
    let m' := { m with heap := m.heap.setFinalized slot }.reassign u.address 0 true
    m'.Conserves objects held ∧ m.Drops m' objects held held ∧
      (∀ s v, (s, v) ∈ m'.instances ↔ s ≠ slot ∧ (s, v) ∈ m.instances) ∧
      ∀ s v, (s, v) ∈ m'.instances → m'.target v = m.target v := by
  intro m'
  let flagged : Machine := { m with heap := m.heap.setFinalized slot }
  obtain ⟨others, hperm, hnodup, hothers⟩ := instances_split hin
  let rest := others.map (fun i => m.target i.2) ++ held
  have hslot := h.sound.flagged (mem_instances.mp hin).1
  have hflagged : ∀ s v, (s, v) ∈ flagged.instances ↔ s ≠ slot ∧ (s, v) ∈ m.instances := by
    intro s v
    rw [mem_instances, mem_instances]
    have hflag : flagged.heap.isFinalized s = if s = slot then true else m.heap.isFinalized s :=
      isFinalized_setFinalized hslot
    rw [hflag]
    by_cases hs : s = slot
    · simp [hs]
    · rw [if_neg hs]
      exact (and_iff_right hs).symm
  have htallies : flagged.Tallies objects (m.target u :: rest) :=
    (h.tallies.perm (owners_perm hperm)).of_eq rfl rfl
  have hcount : (m.target u :: rest).count 0 + 1 < 2 ^ 64 :=
    (List.Perm.count_eq (owners_perm hperm) 0) ▸ h.count_lt hfits 0
  obtain ⟨hafter, hdestroyed, hpointers⟩ :=
    htallies.reassign (h.box hin) (.inl rfl) (.inl rfl) (Nat.two_pow_pos 64) hcount
  obtain ⟨memory, destroyed, journal, heq⟩ := flagged.reassign_eq u.address 0 true
  have hinstances : m'.instances = flagged.instances := by
    rw [show m' = _ from heq]
    exact instances_congr rfl rfl rfl
  have hmem : ∀ s v, (s, v) ∈ m'.instances ↔ s ≠ slot ∧ (s, v) ∈ m.instances := hinstances ▸ hflagged
  have htargets : (m'.targets ++ held).Perm rest := by
    have hsame : m'.instances.Perm others := by
      refine (List.perm_ext_iff_of_nodup m'.instances_nodup hnodup).mpr fun i => ?_
      exact (hmem i.1 i.2).trans (hothers i.1 i.2).symm
    have hall := List.Perm.append_right held (List.Perm.map (fun i : Nat × Userdata => m'.target i.2) hsame)
    have hsame : others.map (fun i => m'.target i.2) = _ := h.map_target hin hothers hpointers
    rwa [hsame] at hall
  refine ⟨⟨sound_reassign (Heap.sound_setFinalized h.sound), fun s v hs => ?_,
    (Tallies.cons_null.mp hafter).perm htargets.symm⟩, fun a ha => ?_, hmem, fun s v hs => ?_⟩
  · rw [show m' = _ from heq]
    exact (h.boxed s v ((hmem s v).mp hs).2).of_eq rfl rfl rfl (.refl _)
  · have hne := (h.tallies.object a ha).1
    rw [show a ∈ m'.destroyed ↔ _ from hdestroyed a, htargets.mem_iff, (owners_perm hperm).mem_iff]
    refine or_congr_right ⟨fun hlost => ⟨?_, fun hrest => hlost.2.2 (List.mem_cons_of_mem _ hrest)⟩,
      fun hlost => ⟨hne, ?_, fun hrest => hlost.2 ((List.mem_cons.mp hrest).resolve_left hne)⟩⟩
    · exact hlost.2.1 ▸ List.mem_cons_self
    · exact (List.mem_cons.mp hlost.1).resolve_right hlost.2
  · obtain ⟨hne, hs⟩ := (hmem s v).mp hs
    exact (hpointers _ (h.box hs)).trans (if_neg (h.address_ne hin hs hne))

end Conserves

end Machine

end ScriptHost
