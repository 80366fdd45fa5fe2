import ScriptHost.Proofs.Acquisition

/-! # New objects and new instances

A new object has no owner, and a new instance owns nothing. So the counts still agree when blocks are made,
and when a new instance takes its target there is one owner more.
-/

namespace ScriptHost

theorem Bytes.toNat_zeros (n : Nat) : Bytes.toNat (List.replicate n 0) = 0 := by
  induction n with
  | zero => rfl
  | succ n ih =>
      rw [List.replicate_succ, Bytes.toNat, ih]
      rfl

/-- A new block of zeros reads as zeros. -/
theorem Memory.read_zeroed {m : Memory} (hm : m.Sound) (owner : BlockOwner) (size count : Nat) :
    (m.allocate owner (Array.replicate size 0)).2.read m.frontier count = List.replicate count 0 := by
  have hat : (m.allocate owner (Array.replicate size 0)).2.blockAt? m.frontier =
      some ⟨m.frontier, owner, Array.replicate size 0⟩ :=
    blockAt?_base (allocate_sound hm) (b := ⟨m.frontier, owner, Array.replicate size 0⟩) List.mem_cons_self
  rw [read, hat]
  refine List.eq_replicate_iff.mpr ⟨by simp, fun x hx => ?_⟩
  obtain ⟨i, -, rfl⟩ := List.mem_map.mp hx
  simp only [Array.getElem?_replicate]
  split <;> rfl

/-- A new block takes little more room than its bytes. -/
theorem Memory.frontier_allocate (m : Memory) (owner : BlockOwner) (bytes : Array UInt8) :
    (m.allocate owner bytes).2.frontier ≤ m.frontier + bytes.size + 33 := by
  have hextent : ∀ a s : Nat, a + (max 1 s / 16 + 2) * 16 ≤ a + s + 33 := by omega
  exact hextent _ _

namespace Machine

variable {m m' m'' : Machine} {objects objects' objects'' held : List Address} {slot s mt : Nat} {u v : Userdata}
  {a new : Address} {owner : BlockOwner}

namespace Conserves

/-- A new object belongs to nobody. -/
theorem newCounted (h : m.Conserves objects held) (howner : owner ≠ .userdata) (value : Int)
    (hpos : m.heap.memory.frontier ≠ 0) :
    (m.newCounted owner value).2.Conserves ((m.newCounted owner value).1 :: objects) held ∧
      (m.newCounted owner value).2.targets = m.targets ∧
      ∀ s v, (s, v) ∈ m.instances → (m.newCounted owner value).2.target v = m.target v := by
  have hinstances : (m.newCounted owner value).2.instances = m.instances := instances_congr rfl rfl rfl
  have htarget : ∀ s v, (s, v) ∈ m.instances → (m.newCounted owner value).2.target v = m.target v :=
    fun s v hin => congrArg Bytes.toNat ((h.box hin).read_allocate h.sound.memory _ _)
  have htargets : (m.newCounted owner value).2.targets = m.targets := by
    unfold targets
    rw [hinstances]
    exact List.map_congr_left fun i hi => htarget i.1 i.2 hi
  refine ⟨⟨(Heap.Change.allocate owner _).sound h.sound, fun s v hin => ?_, ?_⟩, htargets, htarget⟩
  · exact (h.boxed s v (hinstances ▸ hin)).of_eq rfl rfl rfl (.refl _)
  · rw [htargets]
    exact h.tallies.newCounted howner value hpos

end Conserves

/-- A machine with a new userdata of a class. -/
def withInstance (m : Machine) (size mt : Nat) : Machine :=
  ({ m with heap := (m.heap.newUserdata size).2 } : Machine).withMetatable (m.heap.newUserdata size).1 mt

/-- What this userdata is. -/
def nextInstance (m : Machine) (size mt : Nat) : Userdata :=
  { serial := m.heap.nextSerial, address := m.heap.memory.frontier, size, metatable := some mt }

variable {size : Nat}

theorem userdata?_withInstance (hm : m.heap.Sound) (size mt s : Nat) :
    (m.withInstance size mt).heap.userdata? s =
      if s = (m.heap.newUserdata size).1 then some (m.nextInstance size mt) else m.heap.userdata? s := by
  have hmade := Heap.newUserdata_userdata? (h := m.heap) size s hm
  rw [withInstance, withMetatable, Heap.userdata?, Heap.modifyUserdata, Arena.get?_modify]
  by_cases hs : s = (m.heap.newUserdata size).1
  · rw [if_pos hs] at hmade ⊢
    rw [if_pos hs]
    exact congrArg (Option.map _) hmade
  · rw [if_neg hs] at hmade ⊢
    rw [if_neg hs]
    exact hmade

theorem SharedClass.hasMetaEntry (h : m.SharedClass mt) (hu : u.metatable = some mt) :
    m.heap.hasMetaEntry u Metafield.finalizer.id = true := by
  obtain ⟨t, g, fn, ht, hg, -⟩ := h.finalizer
  rw [Heap.hasMetaEntry, hu]
  simp only [Option.bind_some, ht, hg]
  rfl

/-- The new userdata is one more instance. -/
theorem mem_instances_withInstance (hm : m.heap.Sound) (hclass : m.SharedClass mt) :
    (s, v) ∈ (m.withInstance size mt).instances ↔
      (s, v) = ((m.heap.newUserdata size).1, m.nextInstance size mt) ∨ (s, v) ∈ m.instances := by
  have hflag : (m.withInstance size mt).heap.isFinalized s =
      if s = (m.heap.newUserdata size).1 then false else m.heap.isFinalized s := Heap.newUserdata_isFinalized
  have hentry : (m.withInstance size mt).heap.hasMetaEntry v Metafield.finalizer.id =
      m.heap.hasMetaEntry v Metafield.finalizer.id := rfl
  rw [mem_instances, mem_instances, userdata?_withInstance hm, hflag, hentry]
  by_cases hs : s = (m.heap.newUserdata size).1
  · have hfree : m.heap.userdata? (m.heap.newUserdata size).1 = none := Heap.newUserdata_slot hm
    subst hs
    rw [if_pos rfl, if_pos rfl, hfree]
    constructor
    · rintro ⟨heq, -⟩
      exact .inl (by rw [Option.some.inj heq])
    · rintro (heq | ⟨hnone, -⟩)
      · obtain rfl : v = m.nextInstance size mt := congrArg Prod.snd heq
        exact ⟨rfl, rfl, hclass.hasMetaEntry rfl⟩
      · cases hnone
  · rw [if_neg hs, if_neg hs]
    refine ⟨.inr, fun h => h.resolve_left fun heq => hs ?_⟩
    exact congrArg Prod.fst heq

theorem sound_withInstance (hm : m.heap.Sound) : (m.withInstance size mt).heap.Sound :=
  (Heap.Change.userMeta _ (some mt)).sound ((Heap.Change.newUserdata size).sound hm)

namespace Conserves

/-- A new instance owns nothing. -/
theorem withInstance (h : m.Conserves objects held) (hclass : m.SharedClass mt) (hsize : Memory.pointerSize ≤ size) :
    (m.withInstance size mt).Conserves objects held ∧
      (m.withInstance size mt).target (m.nextInstance size mt) = 0 ∧
      (m.withInstance size mt).targets.Perm (0 :: m.targets) ∧
      ∀ s v, (s, v) ∈ m.instances → (m.withInstance size mt).target v = m.target v := by
  have hm := h.sound
  let slot := (m.heap.newUserdata size).1
  have hnull : (m.withInstance size mt).target (m.nextInstance size mt) = 0 := by
    have hzeros := Memory.read_zeroed hm.memory .userdata size Memory.pointerSize
    exact (congrArg Bytes.toNat hzeros).trans (Bytes.toNat_zeros _)
  have hold : ∀ s v, (s, v) ∈ m.instances → (m.withInstance size mt).target v = m.target v := by
    intro s v hin
    exact congrArg Bytes.toNat ((h.box hin).read_allocate hm.memory _ _)
  have hinstances : (m.withInstance size mt).instances.Perm ((slot, m.nextInstance size mt) :: m.instances) := by
    refine (List.perm_ext_iff_of_nodup (instances_nodup _) (List.nodup_cons.mpr ⟨fun hin => ?_, m.instances_nodup⟩)).mpr
      fun i => ?_
    · have hthere := (mem_instances.mp hin).1
      rw [Heap.newUserdata_slot hm] at hthere
      cases hthere
    · rw [List.mem_cons]
      exact mem_instances_withInstance hm hclass
  have htargets : (m.withInstance size mt).targets.Perm (0 :: m.targets) := by
    have hmap := hinstances.map fun i => (m.withInstance size mt).target i.2
    rw [List.map_cons, hnull] at hmap
    refine hmap.trans (.cons 0 (.of_eq ?_))
    exact List.map_congr_left fun i hi => hold i.1 i.2 hi
  refine ⟨⟨sound_withInstance hm, fun s v hin => ?_, ?_⟩, hnull, htargets, hold⟩
  · have hboxed : m.Boxed v := by
      rcases (mem_instances_withInstance hm hclass).mp hin with heq | hin
      · obtain rfl : v = m.nextInstance size mt := congrArg Prod.snd heq
        exact ⟨hsize, mt, rfl, hclass⟩
      · exact h.boxed s v hin
    exact hboxed.of_eq rfl rfl rfl (.refl _)
  · have hall : (m.withInstance size mt).Tallies objects (m.targets ++ held) :=
      h.tallies.of_counted (sound_withInstance hm).memory (fun a ha =>
        ⟨ha.allocate _ _, congrArg Counted.ofBytes (ha.read_allocate hm.memory _ _)⟩) rfl
    exact (Tallies.cons_null.mpr hall).perm (htargets.symm.append_right held)

end Conserves

theorem Conserves.passes (h : m.Conserves objects held) (hpasses : m.Passes m') : m'.Conserves objects held :=
  h.of_heap hpasses.heap hpasses.destroyed hpasses.registry hpasses.strings

theorem Passes.instances (h : m.Passes m') : m'.instances = m.instances :=
  instances_congr (by rw [h.heap]) (by rw [h.heap]) (by rw [h.heap])

theorem Passes.targets (h : m.Passes m') : m'.targets = m.targets :=
  targets_congr (by rw [h.heap]) (by rw [h.heap]) (by rw [h.heap]) (by rw [h.heap])

/-! ## Gains -/

/-- Owners and objects may be more than they were, and nothing is destroyed. Tables and functions are as they were,
    and so those of the library are found. -/
structure Gains (m m' : Machine) (objects objects' held : List Address) : Prop where
  conserves : m'.Conserves objects' held
  objects : ∀ a ∈ objects, a ∈ objects'
  destroyed : m'.destroyed = m.destroyed
  owners : ∀ a ∈ m.targets ++ held, a ≠ 0 → a ∈ m'.targets ++ held
  guards : m.guards = [] → m'.guards = []
  tables : m'.heap.tables = m.heap.tables
  functions : m'.heap.functions = m.heap.functions
  registry : m'.registry = m.registry
  strings : m.strings.Extends m'.strings
  ready : m.Ready → m'.Ready

namespace Gains

theorem of_passes (h : m.Conserves objects held) (hpasses : m.Passes m') : m.Gains m' objects objects held where
  conserves := h.passes hpasses
  objects _ ha := ha
  destroyed := hpasses.destroyed
  owners _ ha _ := hpasses.targets ▸ ha
  guards := hpasses.guards
  tables := congrArg Heap.tables hpasses.heap
  functions := congrArg Heap.functions hpasses.heap
  registry := hpasses.registry
  strings := hpasses.strings
  ready := hpasses.ready

theorem trans (h : m.Gains m' objects objects' held) (h' : m'.Gains m'' objects' objects'' held) :
    m.Gains m'' objects objects'' held where
  conserves := h'.conserves
  objects a ha := h'.objects a (h.objects a ha)
  destroyed := h'.destroyed.trans h.destroyed
  owners a ha hne := h'.owners a (h.owners a ha hne) hne
  guards hguards := h'.guards (h.guards hguards)
  tables := h'.tables.trans h.tables
  functions := h'.functions.trans h.functions
  registry := h'.registry.trans h.registry
  strings := h.strings.trans h'.strings
  ready hready := h'.ready (h.ready hready)

end Gains

/-- The same, where it does not matter which objects there are more. -/
def Gained (m m' : Machine) (objects held : List Address) : Prop := ∃ objects', m.Gains m' objects objects' held

theorem Gained.of_passes (h : m.Conserves objects held) (hpasses : m.Passes m') : m.Gained m' objects held :=
  ⟨objects, .of_passes h hpasses⟩

theorem Gained.passes (h : m.Gained m' objects held) (hpasses : m'.Passes m'') : m.Gained m'' objects held := by
  obtain ⟨objects', hgains⟩ := h
  exact ⟨objects', hgains.trans (.of_passes hgains.conserves hpasses)⟩

theorem Gains.gained (h : m.Gains m' objects objects' held) (h' : m'.Gained m'' objects' held) :
    m.Gained m'' objects held := by
  obtain ⟨objects'', hgains⟩ := h'
  exact ⟨objects'', h.trans hgains⟩

theorem Passes.gained (hpasses : m.Passes m') (hm : m.Conserves objects held) (h : m'.Gained m'' objects held) :
    m.Gained m'' objects held := (Gains.of_passes hm hpasses).gained h

theorem Conserves.newCounted_gains (h : m.Conserves objects held) (howner : owner ≠ .userdata) (value : Int)
    (hpos : m.heap.memory.frontier ≠ 0) : m.Gains (m.newCounted owner value).2 objects
      ((m.newCounted owner value).1 :: objects) held := by
  obtain ⟨hconserves, htargets, -⟩ := h.newCounted howner value hpos
  exact ⟨hconserves, fun _ ha => List.mem_cons_of_mem _ ha, rfl, fun a ha _ => htargets ▸ ha, id, rfl, rfl, rfl,
    .refl _, fun hready => hready.of_eq rfl rfl rfl rfl rfl⟩

/-- Where nothing is given up nothing is destroyed. -/
theorem destroyed_reassign {block : Address} : (m.reassign block new false).destroyed = m.destroyed := by
  have hkept : (if new ≠ 0 then m.retain new else m).destroyed = m.destroyed := by
    split <;> rfl
  exact hkept

/-- An instance without a target takes one. -/
theorem Conserves.reassign_gains (h : m.Conserves objects held) (hin : (slot, u) ∈ m.instances)
    (hnull : m.target u = 0) (hnew : new = 0 ∨ new ∈ objects ∧ new ∉ m.destroyed) (hfits : m.Fits held) :
    m.Gains (m.reassign u.address new false) objects objects held := by
  obtain ⟨hconserves, hdrops⟩ := h.reassign hin hnew (.inr hnull) hfits
  have howners : ∀ a ∈ m.targets ++ held, a ≠ 0 → a ∈ (m.reassign u.address new false).targets ++ held := by
    -- An owner that got lost would have left a destroyed object behind.
    intro a ha hne
    by_contra hlost
    obtain ⟨hobject, hlive⟩ := h.tallies.known a ha hne
    have hgone := (hdrops a hobject).mpr (.inr ⟨ha, hlost⟩)
    rw [destroyed_reassign] at hgone
    exact hlive hgone
  obtain ⟨memory, destroyed, journal, heq⟩ := m.reassign_eq u.address new false
  refine ⟨hconserves, fun _ ha => ha, destroyed_reassign, howners, ?_, ?_, ?_, ?_, ?_, ?_⟩ <;> rw [heq]
  · exact id
  · exact .refl _
  · exact fun hready => hready.of_eq rfl rfl rfl rfl rfl

/-- A new instance takes what there is for it. -/
theorem Conserves.take {w : Value} {m₁ : Machine} (h : m.Conserves objects held) (hin : (slot, u) ∈ m.instances)
    (hnull : m.target u = 0) (hfits : m.heap.memory.frontier + held.length + 128 ≤ 2 ^ 64)
    (hpos : m.heap.memory.frontier ≠ 0) (htaken : m.Taken w m₁ new)
    (hlive : ∀ a, m.Behind w a → a ∈ objects ∧ a ∉ m.destroyed) :
    m.Gained (m₁.reassign u.address new false) objects held := by
  cases htaken with
  | found hback hnew =>
      have hgains : m.Gains m₁ objects objects held := .of_passes h hback.passes
      refine ⟨objects, hgains.trans (hgains.conserves.reassign_gains (hback.passes.instances ▸ hin) ?_ ?_ ?_)⟩
      · rw [target, hback.passes.heap]
        exact hnull
      · rw [hback.passes.destroyed]
        exact hnew.imp_right fun hbehind => hlive _ hbehind
      · rw [Fits, hback.passes.heap]
        exact Nat.le_trans (by omega) hfits
  | fresh =>
      have howner : BlockOwner.anonymous ≠ .userdata := by decide
      have hgains := h.newCounted_gains howner 0 hpos
      obtain ⟨-, -, htarget⟩ := h.newCounted howner 0 hpos
      have hthere : (slot, u) ∈ (m.newCounted .anonymous 0).2.instances := by
        rwa [show (m.newCounted .anonymous 0).2.instances = m.instances from instances_congr rfl rfl rfl]
      have hfrontier := m.heap.memory.frontier_allocate .anonymous (Counted.toBytes { value := 0 }).toArray
      rw [List.size_toArray, Counted.length_toBytes] at hfrontier
      refine ⟨_, hgains.trans (hgains.conserves.reassign_gains hthere ((htarget slot u hin).trans hnull)
        (.inr ⟨List.mem_cons_self, fun hgone => ?_⟩) ?_)⟩
      · have hknown := h.tallies.gone _ hgone
        exact absurd ((h.tallies.object _ hknown).2.lt_frontier h.sound.memory) (Nat.lt_irrefl _)
      · have hsize : BoundType.shared.size = 16 := rfl
        rw [hsize] at hfrontier
        have hroom := Nat.add_le_add_right hfrontier (held.length + 64)
        refine Nat.le_trans hroom ?_
        grind

end Machine

end ScriptHost
