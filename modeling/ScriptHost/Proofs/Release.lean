import ScriptHost.Proofs.Boxes

/-! # Finalizers give targets up

The finalizer of a boxed instance gives up its target. A collection that has room for the calls takes away
the instances that nothing reaches, each with the reference that it owned, and keeps the others with theirs.
Closing a machine takes all instances away.
-/

namespace ScriptHost

open Machine

/-- The host runs the finalizer of boxed instances as the library does. -/
def Host.Releases (host : Host) : Prop :=
  ∃ inner, host.enter (.code (.hook .releaseTarget)) = Act.runHook .releaseTarget inner

theorem Programs.host_releases (programs : Programs) (depth : Nat) : (programs.host (depth + 1)).Releases :=
  ⟨_, rfl⟩

namespace Op

variable {m : Machine} {i : StackIndex} {block new : Address} {replacing : Bool}

theorem blockAt_eq (h : m.address? (m.value i) = some block) : blockAt i m = .ok block m := by
  rw [blockAt, bind_ok run_get]
  simp only [h]
  rfl

theorem blockAt_error (h : m.address? (m.value i) = none) : ∃ e, blockAt i m = .error e m := by
  rw [blockAt, bind_ok run_get]
  simp only [h]
  cases i <;> exact ⟨_, rfl⟩

theorem boxTarget_eq (h : m.address? (m.value i) = some block) :
    boxTarget i m = .ok (m.heap.memory.readPointer block) m := by
  rw [boxTarget, bind_ok (blockAt_eq h)]
  rfl

/-- A target is assigned to the box at an index. -/
theorem setSharedTarget_eq (h : m.address? (m.value i) = some block) :
    setSharedTarget i new replacing m = .ok () (m.reassign block new replacing) := by
  let m₁ := m.exchange (m.heap.memory.readPointer block) new replacing
  have hthere : m₁.address? (m₁.value i) = some block := by
    obtain ⟨memory, destroyed, journal, heq⟩ := m.exchange_eq (m.heap.memory.readPointer block) new replacing
    rw [show m₁ = _ from heq]
    exact h
  have hstored : setBoxTarget i new m₁ = .ok () (m.reassign block new replacing) := by
    rw [setBoxTarget, bind_ok (blockAt_eq hthere)]
    rfl
  rw [setSharedTarget, bind_ok (boxTarget_eq h), ← hstored]
  simp only [m₁, exchange]
  split_ifs <;> rfl

/-- Where there is no box, everything stays as it was. -/
theorem setSharedTarget_error (h : m.address? (m.value i) = none) :
    ∃ e, setSharedTarget i new replacing m = .error e m := by
  obtain ⟨e, hfail⟩ := blockAt_error h
  refine ⟨e, ?_⟩
  rw [setSharedTarget, boxTarget, bind_error (bind_error hfail)]

end Op

namespace Machine

variable {m m' m'' : Machine} {objects held : List Address} {slot s : Nat} {u v : Userdata}
  {block new : Address} {replacing : Bool} {kept kept' : Ref → Prop}

/-! ## A turn -/

theorem returnResults_eq (m : Machine) (position : Nat) (wanted : Int) (count : Nat) :
    ∃ stack frames guards, m.returnResults position wanted count = { m with stack, frames, guards } := by
  unfold returnResults
  rw [forgetDecoration_eq]
  dsimp only
  split
  · exact ⟨_, _, _, rfl⟩
  · obtain ⟨stack, heq⟩ := resize_eq _ (position + wanted.toNat)
    rw [heq]
    exact ⟨_, _, _, rfl⟩

/-- An assignment depends on heap and counts only. -/
theorem reassign_congr (heap : m'.heap = m.heap) (destroyed : m'.destroyed = m.destroyed) :
    (m'.reassign block new replacing).heap = (m.reassign block new replacing).heap ∧
      (m'.reassign block new replacing).destroyed = (m.reassign block new replacing).destroyed := by
  have hwrite : ∀ {m m' : Machine} (a : Address) (bytes : Bytes), m'.heap = m.heap →
      (m'.writeBytes a bytes).heap = (m.writeBytes a bytes).heap := by
    intro m m' a bytes heap
    simp only [writeBytes, heap]
  have hcounted : ∀ {m m' : Machine} (a : Address), m'.heap = m.heap → m'.counted a = m.counted a := by
    intro m m' a heap
    simp only [counted, readBytes, heap]
  have hrelease : ∀ {m m' : Machine} (a : Address), m'.heap = m.heap → m'.destroyed = m.destroyed →
      (m'.release a).heap = (m.release a).heap ∧ (m'.release a).destroyed = (m.release a).destroyed := by
    intro m m' a heap destroyed
    obtain ⟨journal, heq⟩ := m.release_eq a
    obtain ⟨journal', heq'⟩ := m'.release_eq a
    rw [heq, heq', hcounted a heap]
    exact ⟨hwrite _ _ heap, by simp only [destroyed]⟩
  have hretain : (if new ≠ 0 then m'.retain new else m').heap = (if new ≠ 0 then m.retain new else m).heap ∧
      (if new ≠ 0 then m'.retain new else m').destroyed = (if new ≠ 0 then m.retain new else m).destroyed := by
    split
    · refine ⟨?_, destroyed⟩
      rw [retain, retain, hcounted new heap]
      exact hwrite _ _ heap
    · exact ⟨heap, destroyed⟩
  unfold reassign exchange
  dsimp only
  rw [heap]
  split
  · have hreleased := hrelease (m.heap.memory.readPointer block) hretain.1 hretain.2
    exact ⟨hwrite _ _ hreleased.1, hreleased.2⟩
  · exact ⟨hwrite _ _ hretain.1, hretain.2⟩

theorem Resumes.eq (h : Resumes m m') :
    m' = { m' with stack := m.stack, frames := m.frames, guards := m.guards } := by
  cases m'
  cases h.stack
  cases h.frames
  cases h.guards
  rfl

/-- What is the first argument of a function. -/
theorem value_inCall {g : Nat} {v : Value} {args : List Value} {o : Origin} :
    (m.inCall g (v :: args) o).value (.fromBottom 1) = v := by
  have hl : Laid (m.stack.size + 1) ((m.stack.toList ++ [.function g]) ++ v :: args)
      (m.inCall g (v :: args) o) := by
    simpa using laid_inCall
  exact hl.value_fromBottom (by simp) (by simp)

/-- The turn of a userdata whose finalizer returns, below the limits, does what the finalizer does. -/
theorem finalize_called {ε : Type} {host : Host} {g n : Nat} {fn : Closure Native} {left : Machine}
    (hhost : host.Lawful) (hm : m.Framed) (hdepth : m.depth < m.limits.callDepth)
    (hsize : m.stack.size + 2 ≤ m.limits.stackSlots)
    (hf : (m.beginTurn slot).metafield (.userdata slot) .finalizer = .function g)
    (hfn : m.heap.function? g = some fn)
    (hrun : host.enter fn.body.behaviour (((m.turned slot).pushGuard {}).inCall g [.userdata slot] fn.body.origin) =
      .ok n left) (hopen : left.closed = m.closed) : (Act.finalize slot : Act ε Unit) host m =
        .ok () { left with stack := m.stack, frames := m.frames, guards := m.guards } := by
  obtain ⟨events, hturned⟩ := turned_eq m slot
  let start : Machine := (m.turned slot).pushGuard {}
  have hstart : start = { m with
      heap := m.heap.setFinalized slot, events := events, guards := {} :: m.guards } := by
    simp only [start, hturned]
    rfl
  have hprepared : m.prepared slot g = start.pushCall g [.userdata slot] := rfl
  have hstack : start.stack = m.stack := by rw [hstart]
  have hroom : (start.pushCall g [.userdata slot]).atLimit = false := by
    refine atLimit_pushCall ?_ ?_
    · rw [hstart]
      exact hdepth
    · rw [hstart]
      exact hsize
  have hthere : start.heap.function? g = some fn := by
    rw [hstart]
    exact hfn
  have hafter : (Act.finalize slot : Act ε Unit) host m = .ok () _ := Act.finalize_function hf
  rw [hprepared, ← hstack, Op.after_ok ((Act.enters_inCall hroom hthere).returns hrun 0)] at hafter
  -- The call leaves stack, frames and guards to the end of the turn.
  obtain ⟨stack, frames, guards, hreturned⟩ := left.returnResults_eq start.stack.size 0 n
  have hclosed : (Op.after ((Act.finalize slot : Act ε Unit) host) m).closed = m.closed := by
    rw [Op.after_ok hafter, hreturned]
    exact hopen
  have hresumes := Act.finalize_resumes (ε := ε) slot hhost hm hclosed
  rw [Op.after_ok hafter] at hresumes
  rw [hafter]
  congr 1
  rw [hresumes.eq, hreturned]
  rfl

/-- The turn of an instance, below the limits, gives up its target and does nothing else. -/
theorem finalize_eq {ε : Type} {host : Host} (hhost : host.Lawful) (hrelease : host.Releases) (hm : m.Framed)
    (hdepth : m.depth < m.limits.callDepth) (hsize : m.stack.size + 2 ≤ m.limits.stackSlots)
    (hu : m.heap.userdata? slot = some u) (hboxed : m.Boxed u) :
    ∃ heap events destroyed journal, (Act.finalize slot : Act ε Unit) host m =
        .ok () { m with heap, events, destroyed, journal } ∧
      heap = ({ m with heap := m.heap.setFinalized slot }.reassign u.address 0 true).heap ∧
      destroyed = ({ m with heap := m.heap.setFinalized slot }.reassign u.address 0 true).destroyed := by
  obtain ⟨-, mt, hmt, hclass⟩ := hboxed
  obtain ⟨t, g, fn, ht, hentry, hfn, hbody⟩ := hclass.finalizer
  obtain ⟨inner, henter⟩ := hrelease
  obtain ⟨events, hturned⟩ := turned_eq m slot
  let called : Machine := ((m.turned slot).pushGuard {}).inCall g [.userdata slot] fn.body.origin
  obtain ⟨stack, frames, guards, hcalled⟩ : ∃ stack frames guards, called =
      { m with heap := m.heap.setFinalized slot, events, stack, frames, guards } := by
    simp only [called, inCall, pushCall_eq, hturned]
    exact ⟨_, _, _, rfl⟩
  have haddress : called.address? (called.value (.fromBottom 1)) = some u.address := by
    rw [value_inCall, address?, hcalled]
    exact congrArg _ hu
  have hrun : host.enter fn.body.behaviour called = .ok 0 (called.reassign u.address 0 true) := by
    rw [hbody, henter, Act.runHook]
    exact Act.bind_ok (Act.run_lift.trans (Op.setSharedTarget_eq haddress))
  obtain ⟨memory, destroyed, journal, hreassigned⟩ := called.reassign_eq u.address 0 true
  have hafter := finalize_called (ε := ε) hhost hm hdepth hsize (metafield_beginTurn hu hmt ht hentry) hfn hrun
    (by rw [hreassigned, hcalled])
  refine ⟨(called.reassign u.address 0 true).heap, events, (called.reassign u.address 0 true).destroyed,
    journal, ?_, reassign_congr (by rw [hcalled]) (by rw [hcalled])⟩
  rw [hafter, hreassigned, hcalled]

/-! ## Machines without some instances -/

theorem targets_congr (userdata : m'.heap.userdata = m.heap.userdata) (finalized : m'.heap.finalized = m.heap.finalized)
    (tables : m'.heap.tables = m.heap.tables) (memory : m'.heap.memory = m.heap.memory) : m'.targets = m.targets := by
  unfold targets target
  rw [instances_congr userdata finalized tables, memory]

theorem mem_targets {a : Address} : a ∈ m.targets ↔ ∃ s u, (s, u) ∈ m.instances ∧ m.target u = a := by
  simp only [targets, List.mem_map, Prod.exists]

/-- Only objects and memory count, and what was destroyed. -/
theorem Conserves.congr (h : m.Conserves objects held) (sound : m'.heap.Sound)
    (userdata : m'.heap.userdata = m.heap.userdata) (finalized : m'.heap.finalized = m.heap.finalized)
    (tables : m'.heap.tables = m.heap.tables) (functions : m'.heap.functions = m.heap.functions)
    (memory : m'.heap.memory = m.heap.memory) (destroyed : m'.destroyed = m.destroyed)
    (registry : m'.registry = m.registry) (strings : m.strings.Extends m'.strings) :
    m'.Conserves objects held := by
  refine ⟨sound, fun slot u hin => ?_, ?_⟩
  · rw [instances_congr userdata finalized tables] at hin
    exact (h.boxed slot u hin).of_eq tables functions registry strings
  · rw [targets_congr userdata finalized tables memory]
    exact h.tallies.of_eq memory destroyed

theorem Conserves.of_heap (h : m.Conserves objects held) (heap : m'.heap = m.heap)
    (destroyed : m'.destroyed = m.destroyed) (registry : m'.registry = m.registry)
    (strings : m.strings.Extends m'.strings) : m'.Conserves objects held :=
  h.congr (heap ▸ h.sound) (by rw [heap]) (by rw [heap]) (by rw [heap]) (by rw [heap]) (by rw [heap]) destroyed
    registry strings

theorem Drops.refl (m : Machine) (objects held : List Address) : m.Drops m objects held held := by
  intro a _
  refine (or_iff_left ?_).symm
  rintro ⟨hin, hout⟩
  exact hout hin

/-- What loses owners on the way and gains none is destroyed when the last one goes. -/
theorem Drops.trans (h : m.Drops m' objects held held) (h' : m'.Drops m'' objects held held)
    (hsub : ∀ a ∈ m'.targets, a ∈ m.targets) (hsub' : ∀ a ∈ m''.targets, a ∈ m'.targets) :
    m.Drops m'' objects held held := by
  have hfewer : ∀ a ∈ m'.targets ++ held, a ∈ m.targets ++ held := fun a ha =>
    List.mem_append.mpr ((List.mem_append.mp ha).imp_left (hsub a))
  have hfewer' : ∀ a ∈ m''.targets ++ held, a ∈ m'.targets ++ held := fun a ha =>
    List.mem_append.mpr ((List.mem_append.mp ha).imp_left (hsub' a))
  intro a ha
  rw [h' a ha, h a ha]
  constructor
  · rintro ((hgone | ⟨hin, hout⟩) | ⟨hin, hout⟩)
    · exact .inl hgone
    · exact .inr ⟨hin, fun hlast => hout (hfewer' a hlast)⟩
    · exact .inr ⟨hfewer a hin, hout⟩
  · rintro (hgone | ⟨hin, hout⟩)
    · exact .inl (.inl hgone)
    · by_cases hthere : a ∈ m'.targets ++ held
      · exact .inr ⟨hthere, hout⟩
      · exact .inl (.inr ⟨hin, hthere⟩)

/-- A machine has lost what is not kept: instances, which have given up their targets, and other objects of
    the heap. -/
structure Sheds (m m' : Machine) (objects held : List Address) (kept : Ref → Prop) : Prop where
  eq : ∃ heap events destroyed journal, m' = { m with heap, events, destroyed, journal }
  conserves : m'.Conserves objects held
  drops : m.Drops m' objects held held
  instances : ∀ s v, (s, v) ∈ m'.instances ↔ kept ⟨.userdata, s⟩ ∧ (s, v) ∈ m.instances
  target : ∀ s v, (s, v) ∈ m'.instances → m'.target v = m.target v
  tables : ∀ s, kept ⟨.table, s⟩ → m'.heap.tables.get? s = m.heap.tables.get? s
  functions : ∀ s, kept ⟨.function, s⟩ → m'.heap.function? s = m.heap.function? s
  frontier : m'.heap.memory.frontier = m.heap.memory.frontier

namespace Sheds

theorem refl (h : m.Conserves objects held) : m.Sheds m objects held fun _ => True where
  eq := ⟨m.heap, m.events, m.destroyed, m.journal, rfl⟩
  conserves := h
  drops := .refl m objects held
  instances _ _ := (iff_of_eq (true_and _)).symm
  target _ _ _ := rfl
  tables _ _ := rfl
  functions _ _ := rfl
  frontier := rfl

theorem targets_subset (h : m.Sheds m' objects held kept) {a : Address} (ha : a ∈ m'.targets) :
    a ∈ m.targets := by
  obtain ⟨s, u, hin, rfl⟩ := mem_targets.mp ha
  exact mem_targets.mpr ⟨s, u, ((h.instances s u).mp hin).2, (h.target s u hin).symm⟩

theorem trans (h : m.Sheds m' objects held kept) (h' : m'.Sheds m'' objects held kept') :
    m.Sheds m'' objects held fun r => kept r ∧ kept' r := by
  obtain ⟨heap, events, destroyed, journal, heq⟩ := h.eq
  obtain ⟨heap', events', destroyed', journal', heq'⟩ := h'.eq
  refine ⟨⟨heap', events', destroyed', journal', by rw [heq', heq]⟩, h'.conserves,
    h.drops.trans h'.drops (fun _ => h.targets_subset) fun _ => h'.targets_subset, fun s v => ?_,
    fun s v hin => ?_, fun s hs => (h'.tables s hs.2).trans (h.tables s hs.1),
    fun s hs => (h'.functions s hs.2).trans (h.functions s hs.1), h'.frontier.trans h.frontier⟩
  · rw [h'.instances, h.instances, ← and_assoc, and_comm (a := kept' _)]
  · exact (h'.target s v hin).trans (h.target s v ((h'.instances s v).mp hin).2)

/-- More may be lost, but for instances. -/
theorem mono (h : m.Sheds m' objects held kept) (hkept : ∀ r, kept' r → kept r)
    (hinstances : ∀ s v, (s, v) ∈ m.instances → kept ⟨.userdata, s⟩ → kept' ⟨.userdata, s⟩) :
    m.Sheds m' objects held kept' := by
  refine ⟨h.eq, h.conserves, h.drops, fun s v => ?_, h.target, fun s hs => h.tables s (hkept _ hs),
    fun s hs => h.functions s (hkept _ hs), h.frontier⟩
  rw [h.instances]
  constructor
  · rintro ⟨hk, hin⟩
    exact ⟨hinstances s v hin hk, hin⟩
  · rintro ⟨hk, hin⟩
    exact ⟨hkept _ hk, hin⟩

theorem fits (h : m.Sheds m' objects held kept) (hfits : m.Fits held) : m'.Fits held := by
  unfold Fits
  rw [h.frontier]
  exact hfits

end Sheds

/-- There is room for a turn: for one more call, and for the finalizer and its argument. -/
structure Spacious (m : Machine) : Prop where
  depth : m.depth < m.limits.callDepth
  size : m.stack.size + 2 ≤ m.limits.stackSlots

theorem Sheds.spacious (h : m.Sheds m' objects held kept) (hroom : m.Spacious) : m'.Spacious := by
  obtain ⟨heap, events, destroyed, journal, rfl⟩ := h.eq
  exact ⟨hroom.depth, hroom.size⟩

theorem Sheds.framed (h : m.Sheds m' objects held kept) (hm : m.Framed) : m'.Framed := by
  obtain ⟨heap, events, destroyed, journal, rfl⟩ := h.eq
  exact hm

theorem frontier_reassign : (m.reassign block new replacing).heap.memory.frontier = m.heap.memory.frontier := by
  have hwrite : ∀ (m : Machine) (a : Address) (bytes : Bytes),
      (m.writeBytes a bytes).heap.memory.frontier = m.heap.memory.frontier := fun _ _ _ => Memory.write_frontier
  have hrelease : ∀ (m : Machine) (a : Address), (m.release a).heap.memory.frontier = m.heap.memory.frontier := by
    intro m a
    obtain ⟨journal, heq⟩ := m.release_eq a
    rw [heq]
    exact hwrite _ _ _
  have hretain : (if new ≠ 0 then m.retain new else m).heap.memory.frontier = m.heap.memory.frontier := by
    split
    · exact hwrite _ _ _
    · rfl
  rw [reassign, hwrite, exchange]
  split
  · rw [hrelease, hretain]
  · exact hretain

end Machine

namespace Act

variable {ε : Type} {host : Host} {m : Machine} {objects held : List Address} {slot : Nat} {u : Userdata}

/-- The turn of an instance takes it away. -/
theorem finalize_sheds (hhost : host.Lawful) (hrelease : host.Releases) (hm : m.Framed) (hroom : m.Spacious)
    (h : m.Conserves objects held) (hfits : m.Fits held) (hin : (slot, u) ∈ m.instances) :
    ∃ m', (finalize slot : Act ε Unit) host m = .ok () m' ∧
      m.Sheds m' objects held (· ≠ ⟨.userdata, slot⟩) := by
  obtain ⟨heap, events, destroyed, journal, hrun, rfl, rfl⟩ :=
    finalize_eq (ε := ε) hhost hrelease hm hroom.depth hroom.size
    (mem_instances.mp hin).1 (h.boxed slot u hin)
  obtain ⟨hconserves, hdrops, hinstances, htargets⟩ := h.turn hin hfits
  let flagged : Machine := { m with heap := m.heap.setFinalized slot }
  obtain ⟨memory, destroyed, journal', heq⟩ := flagged.reassign_eq u.address 0 true
  have hsame : { m with
      heap := (flagged.reassign u.address 0 true).heap, events := events
      destroyed := (flagged.reassign u.address 0 true).destroyed, journal := journal }.instances =
        (flagged.reassign u.address 0 true).instances := instances_congr rfl rfl rfl
  refine ⟨_, hrun, ⟨_, _, _, _, rfl⟩, ?_, ?_, fun s v => ?_, fun s v hs => ?_, fun s _ => ?_, fun s _ => ?_, ?_⟩
  · refine hconserves.of_heap rfl rfl ?_ ?_
    · rw [heq]
    · rw [heq]
      exact .refl _
  · exact hdrops
  · rw [hsame, hinstances]
    simp
  · rw [hsame] at hs
    exact htargets s v hs
  · rw [heq]
    rfl
  · rw [heq]
    rfl
  · exact frontier_reassign

/-- The turns of instances take them away one by one. -/
theorem turns_shed (hhost : host.Lawful) (hrelease : host.Releases) (hm : m.Framed) (hroom : m.Spacious)
    (h : m.Conserves objects held) (hfits : m.Fits held) (slots : List Nat) (hnodup : slots.Nodup)
    (hslots : ∀ s ∈ slots, ∃ u, (s, u) ∈ m.instances) :
    ∃ m', (slots.forM finalize : Act ε PUnit) host m = .ok ⟨⟩ m' ∧
      m.Sheds m' objects held fun r => ∀ s ∈ slots, r ≠ ⟨.userdata, s⟩ := by
  induction slots generalizing m with
  | nil => exact ⟨m, rfl, (Sheds.refl h).mono (fun _ _ => trivial) fun _ _ _ _ _ hs => absurd hs List.not_mem_nil⟩
  | cons slot rest ih =>
      obtain ⟨hnot, hrest⟩ := List.nodup_cons.mp hnodup
      obtain ⟨u, hin⟩ := hslots slot List.mem_cons_self
      obtain ⟨m₁, hrun, hshed⟩ := finalize_sheds (ε := ε) hhost hrelease hm hroom h hfits hin
      obtain ⟨m₂, hruns, hsheds⟩ := ih (hshed.framed hm) (hshed.spacious hroom) hshed.conserves (hshed.fits hfits)
        hrest fun s hs => by
          obtain ⟨v, hv⟩ := hslots s (List.mem_cons_of_mem _ hs)
          refine ⟨v, (hshed.instances s v).mpr ⟨fun heq => hnot ?_, hv⟩⟩
          obtain rfl : s = slot := by simpa using heq
          exact hs
      refine ⟨m₂, (bind_ok hrun).trans hruns, (hshed.trans hsheds).mono (fun r hr => ?_) fun s v _ hk t ht => ?_⟩
      · exact ⟨hr slot List.mem_cons_self, fun s hs => hr s (List.mem_cons_of_mem _ hs)⟩
      · rcases List.mem_cons.mp ht with rfl | ht
        · exact hk.1
        · exact hk.2 t ht

end Act

/-! ## Collections -/

namespace Machine

variable {m m' : Machine} {objects held : List Address} {slot s mt : Nat} {u v : Userdata} {kept : Ref → Prop}

/-- A class is what it was where its metatable is kept, and what that holds. -/
theorem SharedClass.of_kept (h : m.SharedClass mt)
    (tables : ∀ s, kept ⟨.table, s⟩ → m'.heap.tables.get? s = m.heap.tables.get? s)
    (functions : ∀ s, kept ⟨.function, s⟩ → m'.heap.function? s = m.heap.function? s)
    (hstep : ∀ {r v r'}, kept r → m.heap.Holds r v → v.ref? = some r' → kept r') (hmt : kept ⟨.table, mt⟩)
    (hregistry : kept ⟨.table, m.registry⟩) (registry : m'.registry = m.registry)
    (strings : m'.strings = m.strings) : m'.SharedClass mt := by
  have htable : ∀ s, kept ⟨.table, s⟩ → m'.heap.table s = m.heap.table s := fun s hs => by
    rw [Heap.table, Heap.table, tables s hs]
  obtain ⟨t, g, fn, ht, hg, hfn, hrelease⟩ := h.finalizer
  have hentry : (m.heap.table mt).get (.string Metafield.finalizer.id) = .function g := by
    rw [Heap.table, ht]
    exact hg
  have hheld : m.heap.Holds ⟨.table, mt⟩ (.function g) := hentry ▸ Heap.holds_get (by rw [hentry]; rfl)
  refine ⟨⟨t, g, fn, (tables mt hmt).trans ht, hg, (functions g (hstep hmt hheld rfl)).trans hfn, hrelease⟩, ?_, ?_⟩
  · rw [strings, htable mt hmt]
    exact h.marker
  · rw [registry, strings, htable _ hregistry]
    exact h.name

theorem kept_of_userdata?_cycle (hm : m.heap.Sound) (hu : m.cycle.2.2.heap.userdata? slot = some u) :
    m.Kept ⟨.userdata, slot⟩ := by
  by_contra hnot
  have hgone := contents?_cycle_of_not_kept hm hnot
  have hthere : m.cycle.2.2.heap.userdata.get? slot = some u := hu
  simp [Heap.contents?, hthere] at hgone

theorem tables_cycle (hm : m.heap.Sound) (hk : m.Kept ⟨.table, s⟩) :
    m.cycle.2.2.heap.tables.get? s = m.heap.tables.get? s := by
  have hsame := contents?_cycle_of_kept hm hk
  exact Option.map_injective (fun _ _ heq => Heap.Contents.table.inj heq) hsame

theorem functions_cycle (hm : m.heap.Sound) (hk : m.Kept ⟨.function, s⟩) :
    m.cycle.2.2.heap.function? s = m.heap.function? s := by
  have hsame := contents?_cycle_of_kept hm hk
  exact Option.map_injective (fun _ _ heq => Heap.Contents.function.inj heq) hsame

/-- An instance is kept: what nothing reaches is due. -/
theorem kept_instance (hin : (s, v) ∈ m.instances) : m.Kept ⟨.userdata, s⟩ := by
  obtain ⟨hv, hflag, hentry⟩ := mem_instances.mp hin
  by_cases hreached : m.Reached ⟨.userdata, s⟩
  · exact .inl hreached
  · exact .inr (.start ⟨s, ⟨v, hv, hreached, hflag, hentry⟩, rfl⟩ rfl)

theorem mem_instances_cycle (hm : m.heap.Sound) : (s, v) ∈ m.cycle.2.2.instances ↔ (s, v) ∈ m.instances := by
  have hentries : m.Kept ⟨.userdata, s⟩ → m.heap.userdata? s = some v →
      m.cycle.2.2.heap.hasMetaEntry v Metafield.finalizer.id = m.heap.hasMetaEntry v Metafield.finalizer.id := by
    intro hk hv
    unfold Heap.hasMetaEntry
    cases hmt : v.metatable with
    | none => rfl
    | some mt => rw [Option.bind_some, Option.bind_some, tables_cycle hm (hk.step (.userMeta hv hmt) rfl)]
  constructor
  · intro hin
    obtain ⟨hv, hflag, hentry⟩ := mem_instances.mp hin
    rw [isFinalized_cycle] at hflag
    exact mem_instances.mpr ⟨userdata?_cycle hv, hflag,
      hentries (kept_of_userdata?_cycle hm hv) (userdata?_cycle hv) ▸ hentry⟩
  · intro hin
    have hk := kept_instance hin
    obtain ⟨hv, hflag, hentry⟩ := mem_instances.mp hin
    refine mem_instances.mpr ⟨userdata?_cycle_of_kept hm hv hk, ?_, (hentries hk hv).trans hentry⟩
    rwa [isFinalized_cycle]

/-- A cycle gives up no block but those of userdata that it does not keep. -/
theorem room_cycle (hm : m.heap.Sound) {user : Bool} {a : Address} {n : Nat} (h : m.heap.memory.Room user a n)
    (hkept : user = true → ∃ s u, m.heap.userdata? s = some u ∧ u.address = a ∧ m.Kept ⟨.userdata, s⟩) :
    m.cycle.2.2.heap.memory.Room user a n ∧
      ∀ k, m.cycle.2.2.heap.memory.read a k = m.heap.memory.read a k := by
  have hspared : a ∉ (m.marked.userdata.garbage m.marked.marking.marks.userdata).map (·.2.address) := by
    obtain ⟨marking, hmarked⟩ := m.marked_eq
    have huserdata : ∀ {s u}, m.marked.userdata.get? s = some u → m.heap.userdata? s = some u := by
      intro s u hu
      rwa [hmarked] at hu
    cases huser : user with
    | true =>
        obtain ⟨s, u, hu, rfl, hk⟩ := hkept huser
        have hthere : m.marked.userdata? s = some u := by rw [hmarked]; exact hu
        have hcontents : m.heap.contents? ⟨.userdata, s⟩ ≠ none := by
          have hget : m.heap.userdata.get? s = some u := hu
          simp [Heap.contents?, hget]
        exact Heap.address_not_freed (sound_marked hm) hthere ((marked_iff_kept hcontents).mpr hk)
    | false =>
        intro hin
        obtain ⟨⟨s, u⟩, hgone, heq⟩ := List.mem_map.mp hin
        have hroom := room_userdata hm (huserdata (Arena.mem_garbage.mp hgone).1)
        exact (huser ▸ h).ne hroom hm.memory heq.symm
  rw [cycle_memory]
  exact ⟨h.free hspared, fun k => h.read_free hm.memory hspared⟩

/-- A cycle keeps all instances: those that nothing reaches wait for their turn. -/
theorem cycle_sheds (h : m.Conserves objects held) : m.Sheds m.cycle.2.2 objects held m.Kept := by
  obtain ⟨heap, events, heq⟩ := m.cycle_eq
  have hm := h.sound
  have hdestroyed : m.cycle.2.2.destroyed = m.destroyed := by rw [heq]
  have htarget : ∀ s v, (s, v) ∈ m.instances → m.cycle.2.2.target v = m.target v := by
    intro s v hin
    have hroom := room_cycle hm (h.box hin) fun _ => ⟨s, v, (mem_instances.mp hin).1, rfl, kept_instance hin⟩
    exact congrArg Bytes.toNat (hroom.2 _)
  have htargets : m.targets.Perm m.cycle.2.2.targets := by
    have hinstances : m.instances.Perm m.cycle.2.2.instances :=
      (List.perm_ext_iff_of_nodup m.instances_nodup m.cycle.2.2.instances_nodup).mpr
        fun i => (mem_instances_cycle hm).symm
    have hmap := List.Perm.map (fun i : Nat × Userdata => m.target i.2) hinstances
    have hsame : m.cycle.2.2.targets = m.cycle.2.2.instances.map fun i => m.target i.2 :=
      List.map_congr_left fun i hi => htarget i.1 i.2 ((mem_instances_cycle hm).mp hi)
    rwa [hsame]
  refine ⟨⟨heap, events, m.destroyed, m.journal, heq⟩, ⟨cycle_sound hm, fun s v hin => ?_, ?_⟩, fun a _ => ?_,
    fun s v => ?_, fun s v hin => htarget s v ((mem_instances_cycle hm).mp hin), fun s hs => tables_cycle hm hs,
    fun s hs => functions_cycle hm hs, ?_⟩
  · have hin := (mem_instances_cycle hm).mp hin
    obtain ⟨hsize, mt, hmt, hclass⟩ := h.boxed s v hin
    have hk : m.Kept ⟨.table, mt⟩ := (kept_instance hin).step (.userMeta (mem_instances.mp hin).1 hmt) rfl
    refine ⟨hsize, mt, hmt, hclass.of_kept (fun s hs => tables_cycle hm hs) (fun s hs => functions_cycle hm hs)
      (fun hr hv hr' => hr.step hv hr') hk (.inl (.start .registry rfl)) ?_ ?_⟩
    · rw [heq]
    · rw [heq]
  · refine (h.tallies.perm (htargets.append_right held)).of_counted (cycle_sound hm).memory (fun a ha => ?_) hdestroyed
    have hroom := room_cycle hm ha fun huser => absurd huser Bool.false_ne_true
    exact ⟨hroom.1, congrArg Counted.ofBytes (hroom.2 _)⟩
  · rw [hdestroyed, (htargets.append_right held).mem_iff]
    refine (or_iff_left ?_).symm
    rintro ⟨hin, hout⟩
    exact hout hin
  · rw [mem_instances_cycle hm]
    refine (and_iff_right_of_imp fun hin => kept_instance hin).symm
  · rw [cycle_memory, Memory.free]
    split <;> rfl

/-- What a collection keeps: what the roots reach. -/
theorem collect_sheds {ε : Type} {host : Host} (hhost : host.Lawful) (hrelease : host.Releases) (hm : m.Framed)
    (hroom : m.Spacious) (h : m.Conserves objects held) (hfits : m.Fits held) (hopen : m.closed = false) :
    ∃ freed m', (Act.collect : Act ε Nat) host m = .ok freed m' ∧ m.Sheds m' objects held m.Reached := by
  have hcycle := cycle_sheds h
  have hslots : ∀ s ∈ m.cycle.1.reverse, ∃ u, (s, u) ∈ m.cycle.2.2.instances := by
    intro s hs
    obtain ⟨u, hu, -, hflag, hentry⟩ := mem_cycle_queue.mp (List.mem_reverse.mp hs)
    exact ⟨u, (mem_instances_cycle h.sound).mpr (mem_instances.mpr ⟨hu, hflag, hentry⟩)⟩
  obtain ⟨m', hruns, hturns⟩ := Act.turns_shed (ε := ε) hhost hrelease (hcycle.framed hm) (hcycle.spacious hroom)
    hcycle.conserves (hcycle.fits hfits) m.cycle.1.reverse (List.nodup_reverse.mpr cycle_queue_nodup) hslots
  obtain ⟨last, hlast, hcollect⟩ := Act.collect_open (ε := ε) host hopen
  have hsame : last = m' := by
    have hboth := hlast.symm.trans hruns
    cases hboth
    rfl
  refine ⟨_, m', hsame ▸ hcollect, (hcycle.trans hturns).mono (fun r hr => ⟨.inl hr, fun s hs heq => ?_⟩)
    fun s v hin hk => ?_⟩
  · obtain ⟨u, -, hunreached, -⟩ := mem_cycle_queue.mp (List.mem_reverse.mp hs)
    exact hunreached (heq ▸ hr)
  · -- An instance that nothing reaches has had its turn.
    by_contra hunreached
    obtain ⟨hv, hflag, hentry⟩ := mem_instances.mp hin
    exact hk.2 s (List.mem_reverse.mpr (mem_cycle_queue.mpr ⟨v, hv, hunreached, hflag, hentry⟩)) rfl

/-- A collection that is due, if one is. -/
theorem collectIfDue_sheds {ε : Type} {host : Host} (hhost : host.Lawful) (hrelease : host.Releases)
    (hm : m.Framed) (hroom : m.Spacious) (h : m.Conserves objects held) (hfits : m.Fits held)
    (hopen : m.closed = false) : ∃ m' kept, (Act.collectIfDue : Act ε Unit) host m = .ok () m' ∧
      m.Sheds m' objects held kept ∧ ∀ r, m.Reached r → kept r := by
  obtain ⟨m', hdue, hcases⟩ := Act.collectIfDue_cases (ε := ε) host m
  rcases hcases with rfl | ⟨freed, hcollect⟩
  · exact ⟨m', _, hdue, .refl h, fun _ _ => trivial⟩
  · obtain ⟨freed', last, hrun, hsheds⟩ := collect_sheds (ε := ε) hhost hrelease hm hroom h hfits hopen
    have hboth := hcollect.symm.trans hrun
    cases hboth
    exact ⟨m', _, hdue, hsheds, fun _ hr => hr⟩

/-! ## Closing -/

theorem shut_eq (m : Machine) : ∃ marking events, m.shut.2 =
    { m with
      stack := #[], frames := [], guards := [], closed := true, heap := { m.heap with marking }, events } := by
  unfold shut
  dsimp only
  rw [enqueue_eq]
  exact ⟨_, _, rfl⟩

/-- Closing queues all instances. -/
theorem mem_shut_queue_iff : s ∈ m.shut.1 ↔ ∃ u, (s, u) ∈ m.instances := by
  constructor
  · intro hs
    obtain ⟨u, hu, -, hflag, hentry⟩ := Heap.mem_finalizable.mp hs
    exact ⟨u, mem_instances.mpr ⟨hu, hflag, hentry⟩⟩
  · rintro ⟨u, hin⟩
    obtain ⟨hu, hflag, hentry⟩ := mem_instances.mp hin
    refine Heap.mem_finalizable.mpr ⟨u, hu, Heap.not_marked_prepare ?_, hflag, hentry⟩
    have hget : m.heap.userdata.get? s = some u := hu
    simp [Heap.contents?, hget]

/-- Closing a machine takes all instances away. What the host holds itself is left. -/
theorem close_releases {ε : Type} {host : Host} (hhost : host.Lawful) (hrelease : host.Releases)
    (h : m.Conserves objects held) (hfits : m.Fits held) (hopen : m.closed = false)
    (hdepth : 0 < m.limits.callDepth) (hsize : 2 ≤ m.limits.stackSlots) :
    ∃ m', (Act.close : Act ε Unit) host m = .ok () m' ∧ m'.Conserves objects held ∧
      m.Drops m' objects held held ∧ m'.instances = [] ∧ m'.closed = true := by
  obtain ⟨marking, events, heq⟩ := m.shut_eq
  have hshut : m.shut.2.Conserves objects held := by
    rw [heq]
    exact h.congr (h.sound.of_eq h.sound.tables h.sound.functions h.sound.boxed rfl rfl rfl rfl) rfl rfl rfl rfl rfl rfl
      rfl (.refl _)
  have hinstances : m.shut.2.instances = m.instances := by
    rw [heq]
    exact instances_congr rfl rfl rfl
  have htargets : m.shut.2.targets = m.targets := by
    rw [heq]
    exact targets_congr rfl rfl rfl rfl
  obtain ⟨m', hruns, hturns⟩ := Act.turns_shed (ε := ε) hhost hrelease (by rw [heq]; exact Nat.zero_le _)
    (by rw [heq]; exact ⟨hdepth, hsize⟩) hshut (by rw [heq]; exact hfits) m.shut.1.reverse
    (List.nodup_reverse.mpr (Heap.finalizable_sorted.imp Nat.ne_of_lt)) fun s hs =>
      hinstances ▸ mem_shut_queue_iff.mp (List.mem_reverse.mp hs)
  have hempty : m'.instances = [] := by
    refine List.eq_nil_iff_forall_not_mem.mpr fun i hi => ?_
    obtain ⟨hk, hin⟩ := (hturns.instances i.1 i.2).mp hi
    exact hk i.1 (List.mem_reverse.mpr (mem_shut_queue_iff.mpr ⟨i.2, hinstances ▸ hin⟩)) rfl
  refine ⟨{ m' with cache := m'.cache.clear }, ?_, hturns.conserves.of_heap rfl rfl rfl (.refl _), fun a ha => ?_, hempty,
    ?_⟩
  · rw [Act.close, Act.run_bind, Act.run_get]
    simp only [hopen, Bool.not_false, if_true]
    exact (Act.bind_ok Act.run_modifyGet).trans ((Act.bind_ok hruns).trans Act.run_modify)
  · have hdrops := hturns.drops a ha
    rw [htargets, show m.shut.2.destroyed = m.destroyed by rw [heq]] at hdrops
    exact hdrops
  · obtain ⟨heap, events, destroyed, journal, hleft⟩ := hturns.eq
    rw [hleft, heq]

end Machine

end ScriptHost
