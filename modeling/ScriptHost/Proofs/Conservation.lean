import ScriptHost.Proofs.NewInstance

/-! # References are conserved

A host makes counted objects, holds references to them, creates instances that point to them and changes what
they point to. A ledger goes with the machine: which objects there are, and which references the host holds
itself. Whatever the host does, the count of an object is the number of instances that point to it and of
references that the host holds, and the object is destroyed when that number becomes zero.
-/

namespace ScriptHost

open Machine

/-- A machine, the counted objects that there are, and the references that the host holds itself. -/
structure Ledger where
  machine : Machine
  objects : List Address
  held : List Address

/-- What a host does with counted objects and the instances that point to them. -/
inductive Deed where
  /-- Changes what is on the stack. -/
  | arrange (stack : Array Value)
  /-- Makes an object that nobody holds yet. -/
  | make (name : String) (value : Int)
  /-- Takes a reference for the host itself. -/
  | retain (a : Address)
  /-- Gives such a reference up. -/
  | release (a : Address)
  /-- Creates an instance of a class. -/
  | create (name : String) (source : Source)
  /-- Assigns a target to an instance, or none. -/
  | assign (i : StackIndex) (target : Address)
  /-- Assigns the object behind another value to an instance. -/
  | assignFrom (i source : StackIndex)
  | collect
  | close

namespace Deed

def run : Deed → Act ScriptError Unit
  | .arrange stack => modify fun m => { m with stack }
  | .make name value => do
      let _ ← modifyGet (·.newCounted (.host name) value)
  | .retain a => modify (·.retain a)
  | .release a => modify (·.release a)
  | .create name source => Act.newInstance name source.directives source.arguments
  | .assign i target => Op.setSharedTarget i target true
  | .assignFrom i source => Act.setSharedFrom i source true
  | .collect => do
      let _ ← Act.collect
  | .close => Act.close

/-- The objects that there are afterwards: also a new one, and what new instances have taken. -/
def objects (m m' : Machine) (objects : List Address) : Deed → List Address
  | .make name value => (m.newCounted (.host name) value).1 :: objects
  | .create _ _ => m'.targets.filter (fun a => a ≠ 0 ∧ a ∉ objects) ++ objects
  | _ => objects

/-- The references that the host holds afterwards. -/
def held (held : List Address) : Deed → List Address
  | .retain a => a :: held
  | .release a => held.erase a
  | _ => held

end Deed

namespace Machine

/-- No native function runs, and the machine is open. -/
structure AtRest (m : Machine) : Prop where
  frames : m.frames = []
  guards : m.guards = []
  closed : m.closed = false

/-- The functions of the library are found still, and the classes are there. -/
structure Keeps (m m' : Machine) : Prop where
  ready : m.Ready → m'.Ready
  hasClass : ∀ name h size, m.HasClass name h size → m'.HasClass name h size

/-- An index names an instance that needs its finalizer still, if it names a block or handle at all. -/
def Assignable (m : Machine) (i : StackIndex) : Prop :=
  m.address? (m.value i) = none ∨ ∃ slot u, m.value i = .userdata slot ∧ (slot, u) ∈ m.instances

end Machine

namespace Ledger

/-- What the host may do. Where a cycle may run there is room for a turn of it, and for the calls it runs in; and
    addresses and counts fit into 64 bits. -/
def Permits (s : Ledger) : Deed → Prop
  | .arrange _ | .make _ _ => True
  | .retain a => a ∈ s.objects ∧ a ∉ s.machine.destroyed ∧ s.machine.Fits s.held
  | .release a => a ∈ s.held
  | .create name source => 1 < s.machine.limits.callDepth ∧
      s.machine.stack.size + 6 ≤ s.machine.limits.stackSlots ∧
      ∃ h ∈ Act.takers, ∃ size, s.machine.Produces (s.machine.registered name) h size ∧
        s.machine.heap.memory.frontier + size + s.held.length + 192 ≤ 2 ^ 64 ∧
        ∀ v ∈ source.value? s.machine.value, s.machine.Feeds s.objects s.held h v
  | .assign i target => s.machine.Assignable i ∧ s.machine.Fits s.held ∧
      (target = 0 ∨ target ∈ s.objects ∧ target ∉ s.machine.destroyed)
  | .assignFrom i source => s.machine.Assignable (s.machine.absolute i) ∧ s.machine.Fits s.held ∧
      s.machine.Live s.objects (s.machine.value (s.machine.absolute source))
  | .collect => s.machine.Spacious ∧ s.machine.Fits s.held
  | .close => 0 < s.machine.limits.callDepth ∧ 2 ≤ s.machine.limits.stackSlots ∧ s.machine.Fits s.held

/-- What a deed makes of a ledger, whether it succeeds or fails. -/
def after (host : Host) (s : Ledger) (d : Deed) : Ledger :=
  let machine := Op.after (d.run host) s.machine
  { machine, objects := d.objects s.machine machine s.objects, held := d.held s.held }

/-- How many instances point to an object, and how many references the host holds to it. -/
def owners (s : Ledger) (a : Address) : Nat :=
  (s.machine.instances.countP fun i => s.machine.target i.2 == a) + s.held.count a

/-- A host outside of native functions does what it may. -/
inductive Next (host : Host) (s : Ledger) : Ledger → Prop where
  | deed (d) : s.machine.AtRest → s.Permits d → Next host s (s.after host d)

/-- The counts agree with what the ledger says. -/
structure Balanced (s : Ledger) : Prop where
  reachable : s.machine.Reachable
  conserves : s.machine.Conserves s.objects s.held
  held : 0 ∉ s.held

/-- The counts agree afterwards, and what lost its last owner on the way was destroyed. As long as the machine is
    open the classes stay. -/
structure Settles (s s' : Ledger) : Prop where
  conserves : s'.machine.Conserves s'.objects s'.held
  drops : s.machine.Drops s'.machine s.objects s.held s'.held
  gone : ∀ a ∈ s'.machine.destroyed, a ∈ s.objects
  keeps : s'.machine.closed = false → s.machine.Keeps s'.machine

end Ledger

namespace Machine

variable {m m' m'' : Machine} {objects objects' held held' : List Address} {a : Address} {kept : Ref → Prop}

namespace Keeps

theorem refl (m : Machine) : m.Keeps m := ⟨fun h => h, fun _ _ _ h => h⟩

theorem trans (h : m.Keeps m') (h' : m'.Keeps m'') : m.Keeps m'' :=
  ⟨fun hready => h'.ready (h.ready hready),
    fun name hook size hclass => h'.hasClass name hook size (h.hasClass name hook size hclass)⟩

theorem of_eq (tables : m'.heap.tables = m.heap.tables) (functions : m'.heap.functions = m.heap.functions)
    (registry : m'.registry = m.registry) (globals : m'.globals = m.globals) (cache : m'.cache = m.cache)
    (strings : m'.strings = m.strings) : m.Keeps m' :=
  ⟨fun h => h.of_eq tables functions strings globals cache,
    fun _ _ _ h => h.of_eq tables functions registry (strings ▸ .refl _)⟩

theorem passes (h : m.Passes m') : m.Keeps m' :=
  ⟨h.ready, fun _ _ _ hclass => hclass.of_eq (by rw [h.heap]) (by rw [h.heap]) h.registry h.strings⟩

theorem sheds (h : m.Sheds m' objects held kept) (hkept : ∀ r, m.Reached r → kept r) : m.Keeps m' :=
  ⟨h.ready hkept, fun _ _ _ hclass => hclass.sheds h hkept⟩

theorem conveys (h : m.Conveys m' objects held) : m.Keeps m' := ⟨h.ready, fun _ _ _ => h.hasClass⟩

theorem reassign {block new : Address} {replacing : Bool} : m.Keeps (m.reassign block new replacing) := by
  obtain ⟨memory, destroyed, journal, heq⟩ := m.reassign_eq block new replacing
  rw [heq]
  exact .of_eq rfl rfl rfl rfl rfl rfl

end Keeps

/-- Where owners and destroyed objects stay the same nothing is destroyed. -/
theorem drops_of_eq (destroyed : m'.destroyed = m.destroyed) (targets : m'.targets = m.targets) :
    m.Drops m' objects held held := by
  unfold Drops
  rw [destroyed, targets]
  exact Drops.refl m objects held

namespace Conserves

/-- The targets of instances are kept while the count of an object changes. -/
theorem targets_storeCounted (h : m.Conserves objects held) (ha : a ∈ objects) {c : Counted} :
    (m.storeCounted a c).targets = m.targets := by
  have hinstances : (m.storeCounted a c).instances = m.instances := instances_congr rfl rfl rfl
  unfold targets
  rw [hinstances]
  exact List.map_congr_left fun i hi =>
    readPointer_storeCounted h.sound.memory (h.tallies.object a ha).2 (h.box hi)

theorem boxed_of_eq (h : m.Conserves objects held) (userdata : m'.heap.userdata = m.heap.userdata)
    (finalized : m'.heap.finalized = m.heap.finalized) (tables : m'.heap.tables = m.heap.tables)
    (functions : m'.heap.functions = m.heap.functions) (registry : m'.registry = m.registry)
    (strings : m'.strings = m.strings) : ∀ slot u, (slot, u) ∈ m'.instances → m'.Boxed u := by
  intro slot u hin
  rw [instances_congr userdata finalized tables] at hin
  exact (h.boxed slot u hin).of_eq tables functions registry (strings ▸ .refl _)

/-- The host takes a reference. -/
theorem retain (h : m.Conserves objects held) (ha : a ∈ objects) (hlive : a ∉ m.destroyed)
    (hfits : m.Fits held) :
    (m.retain a).Conserves objects (a :: held) ∧ m.Drops (m.retain a) objects held (a :: held) := by
  have htargets : (m.retain a).targets = m.targets := h.targets_storeCounted ha
  refine ⟨⟨(Heap.Change.write _ _).sound h.sound, h.boxed_of_eq rfl rfl rfl rfl rfl rfl, ?_⟩, fun b _ => ?_⟩
  · rw [htargets]
    exact (h.tallies.retain ha hlive (h.count_lt hfits a)).perm List.perm_middle.symm
  · rw [htargets]
    refine (or_iff_left ?_).symm
    rintro ⟨hin, hout⟩
    exact hout (List.perm_middle.symm.subset (List.mem_cons_of_mem a hin))

/-- The host gives a reference up. -/
theorem release (h : m.Conserves objects held) (ha : a ∈ held) (hne : a ≠ 0) :
    (m.release a).Conserves objects (held.erase a) ∧ m.Drops (m.release a) objects held (held.erase a) := by
  obtain ⟨journal, heq⟩ := m.release_eq a
  obtain ⟨hobject, -⟩ := h.tallies.known a (List.mem_append_right _ ha) hne
  have hperm : (m.targets ++ held).Perm (a :: (m.targets ++ held.erase a)) :=
    ((List.perm_cons_erase ha).append_left _).trans List.perm_middle
  have htallies := h.tallies.perm hperm
  have htargets : (m.release a).targets = m.targets := by
    rw [← h.targets_storeCounted hobject (c := (m.counted a).released), heq]
    exact targets_congr rfl rfl rfl rfl
  refine ⟨⟨?_, ?_, ?_⟩, fun b hb => ?_⟩
  · rw [heq]
    exact (Heap.Change.write _ _).sound h.sound
  · rw [heq]
    exact h.boxed_of_eq rfl rfl rfl rfl rfl rfl
  · rw [htargets]
    exact htallies.release hne
  · rw [htallies.mem_destroyed_release hne, htargets, hperm.mem_iff, List.mem_cons]
    refine or_congr_right ⟨?_, ?_⟩
    · rintro ⟨rfl, hlast⟩
      exact ⟨.inl rfl, hlast⟩
    · rintro ⟨rfl | hin, hlast⟩
      · exact ⟨rfl, hlast⟩
      · exact absurd hin hlast

/-- It is enough to know of the objects that somebody owns, and of those that were destroyed. -/
theorem restrict (h : m.Conserves objects' held) (hsub : ∀ a ∈ objects, a ∈ objects')
    (howned : ∀ a ∈ m.targets ++ held, a ≠ 0 → a ∈ objects) (hgone : ∀ a ∈ m.destroyed, a ∈ objects) :
    m.Conserves objects held where
  sound := h.sound
  boxed := h.boxed
  tallies :=
    { sound := h.tallies.sound
      object := fun a ha => h.tallies.object a (hsub a ha)
      known := fun a ha hne => ⟨howned a ha hne, (h.tallies.known a ha hne).2⟩
      gone := hgone
      count := fun a ha => h.tallies.count a (hsub a ha) }

end Conserves

end Machine

namespace Act

variable {ε α : Type} {x : Act ε α} {host : Host} {m : Machine} {P : Machine → Prop}

/-- What holds however a run ends holds afterwards. -/
theorem Ended.after (h : Ended (fun _ => P) P (x host m)) : P (Op.after (x host) m) := by
  unfold Op.after
  cases hx : x host m with
  | ok a m' | error e m' =>
      rw [hx] at h
      exact h

end Act

namespace Ledger

variable {programs : Programs} {k : Nat} {s : Ledger} {d : Deed} {m m' : Machine} {objects held : List Address}

theorem Settles.of_drops (conserves : m'.Conserves objects held) (drops : m.Drops m' objects held held)
    (keeps : m.Keeps m') : Settles ⟨m, objects, held⟩ ⟨m', objects, held⟩ :=
  ⟨conserves, drops, conserves.tallies.gone, fun _ => keeps⟩

theorem Settles.passes (h : m.Conserves objects held) (hpasses : m.Passes m') :
    Settles ⟨m, objects, held⟩ ⟨m', objects, held⟩ :=
  .of_drops (h.passes hpasses) (drops_of_eq hpasses.destroyed hpasses.targets) (.passes hpasses)

theorem make_settles (h : m.Conserves objects held) (hm : m.Reachable) (name : String) (value : Int) :
    Settles ⟨m, objects, held⟩ (after (programs.host k) ⟨m, objects, held⟩ (.make name value)) := by
  have howner : BlockOwner.host name ≠ .userdata := by simp
  obtain ⟨hconserves, htargets, -⟩ := h.newCounted howner value (Nat.ne_of_gt hm.notNull.1)
  exact ⟨hconserves, drops_of_eq rfl htargets, h.tallies.gone, fun _ => .of_eq rfl rfl rfl rfl rfl rfl⟩

/-- Creating an instance: the objects that it brings along are those that instances point to afterwards. -/
theorem create_settles (h : m.Conserves objects held) (hm : m.Reachable) (hready : m.Ready) (hrest : m.AtRest)
    (name : String) (source : Source) (hd : Permits ⟨m, objects, held⟩ (.create name source)) :
    Settles ⟨m, objects, held⟩ (after (programs.host (k + 3)) ⟨m, objects, held⟩ (.create name source)) := by
  obtain ⟨hdepth, hstack, hook, hh, size, hproduces, hfits, hfeeds⟩ := hd
  have hconveys := (Act.newInstance_conveys programs k name source hm.framed hrest.frames hrest.guards hready
    hrest.closed h hproduces hh hdepth hstack hfits (Nat.ne_of_gt hm.notNull.1) hfeeds).after
  obtain ⟨objects', hsub, hconserves, hdrops, hgone⟩ := hconveys.conserves
  refine ⟨hconserves.restrict (fun a ha => ?_) (fun a ha hne => ?_) fun a ha => ?_, hdrops, hgone,
    fun _ => .conveys hconveys⟩
  · rcases List.mem_append.mp ha with hnew | hold
    · obtain ⟨hin, hunknown⟩ := List.mem_filter.mp hnew
      exact (hconserves.tallies.known a (List.mem_append_left _ hin) (of_decide_eq_true hunknown).1).1
    · exact hsub a hold
  · by_cases hknown : a ∈ objects
    · exact List.mem_append_right _ hknown
    · rcases List.mem_append.mp ha with hin | hheld
      · exact List.mem_append_left _ (List.mem_filter.mpr ⟨hin, decide_eq_true ⟨hne, hknown⟩⟩)
      · exact absurd (h.tallies.known a (List.mem_append_right _ hheld) hne).1 hknown
  · exact List.mem_append_right _ (hgone a ha)

theorem assign_settles (h : m.Conserves objects held) (i : StackIndex) (target : Address)
    (hd : Permits ⟨m, objects, held⟩ (.assign i target)) :
    Settles ⟨m, objects, held⟩ (after (programs.host k) ⟨m, objects, held⟩ (.assign i target)) := by
  obtain ⟨hassignable, hfits, htarget⟩ := hd
  rcases hassignable with hnone | ⟨slot, u, hvalue, hin⟩
  · obtain ⟨e, hfail⟩ : ∃ e, Op.setSharedTarget i target true m = .error e m := Op.setSharedTarget_error hnone
    have hafter : Op.after ((Deed.assign i target).run (programs.host k)) m = m := Op.after_error hfail
    rw [after, hafter]
    exact .passes h (.refl m)
  · have haddress : m.address? (m.value i) = some u.address := by
      rw [hvalue, address?, (mem_instances.mp hin).1]
      rfl
    have hafter : Op.after ((Deed.assign i target).run (programs.host k)) m = m.reassign u.address target true :=
      Op.after_ok (Op.setSharedTarget_eq haddress)
    rw [after, hafter]
    obtain ⟨hconserves, hdrops⟩ := h.reassign hin htarget (.inl rfl) hfits
    exact .of_drops hconserves hdrops .reassign

theorem assignFrom_settles (h : m.Conserves objects held) (hm : m.Reachable) (hready : m.Ready) (hrest : m.AtRest)
    (i source : StackIndex) (hd : Permits ⟨m, objects, held⟩ (.assignFrom i source)) :
    Settles ⟨m, objects, held⟩ (after (programs.host (k + 1)) ⟨m, objects, held⟩ (.assignFrom i source)) := by
  obtain ⟨hassignable, hfits, hlive⟩ := hd
  refine ((Act.setSharedFrom_ended programs k i source true hm.framed hrest.guards hready rfl
    (hlive.proper h)).imp ?_ ?_).after (P := fun m' => Settles ⟨m, objects, held⟩ ⟨m', objects, held⟩)
  · rintro u m' ⟨block, new, m₁, haddress, hback, hnew, rfl⟩
    rcases hassignable with hnone | ⟨slot, u, hvalue, hin⟩
    · rw [hnone] at haddress
      cases haddress
    · rw [hvalue, address?, (mem_instances.mp hin).1] at haddress
      obtain rfl : u.address = block := Option.some.inj haddress
      have hpasses := hback.passes
      have hknown : new = 0 ∨ new ∈ objects ∧ new ∉ m₁.destroyed := by
        rw [hpasses.destroyed]
        exact hnew.imp_right (hlive.behind h)
      have hroom : m₁.Fits held := by
        rw [Fits, hpasses.heap]
        exact hfits
      obtain ⟨hconserves, hdrops⟩ := (h.passes hpasses).reassign (hpasses.instances ▸ hin) hknown (.inl rfl) hroom
      refine .of_drops hconserves ?_ (.trans (.passes hpasses) .reassign)
      unfold Drops at hdrops ⊢
      rw [← hpasses.destroyed, ← hpasses.targets]
      exact hdrops
  · intro m' hpasses
    exact .passes h hpasses

theorem collect_settles (h : m.Conserves objects held) (hm : m.Reachable) (hrest : m.AtRest)
    (hd : Permits ⟨m, objects, held⟩ .collect) :
    Settles ⟨m, objects, held⟩ (after (programs.host (k + 1)) ⟨m, objects, held⟩ .collect) := by
  obtain ⟨freed, m', hrun, hsheds⟩ := collect_sheds (ε := ScriptError) (Programs.host_lawful (k + 1))
    (programs.host_releases k) hm.framed hd.1 h hd.2 hrest.closed
  have hafter : Op.after (Deed.collect.run (programs.host (k + 1))) m = m' := Op.after_ok (Act.bind_ok hrun)
  rw [after, hafter]
  exact .of_drops hsheds.conserves hsheds.drops (.sheds hsheds fun _ hr => hr)

theorem close_settles (h : m.Conserves objects held) (hrest : m.AtRest) (hd : Permits ⟨m, objects, held⟩ .close) :
    Settles ⟨m, objects, held⟩ (after (programs.host (k + 1)) ⟨m, objects, held⟩ .close) := by
  obtain ⟨m', hrun, hconserves, hdrops, -, hclosed⟩ := close_releases (ε := ScriptError)
    (Programs.host_lawful (k + 1)) (programs.host_releases k) h hd.2.2 hrest.closed hd.1 hd.2.1
  have hafter : Op.after (Deed.close.run (programs.host (k + 1))) m = m' := Op.after_ok hrun
  rw [after, hafter]
  refine ⟨hconserves, hdrops, hconserves.tallies.gone, fun hopen => ?_⟩
  exact absurd (hclosed.symm.trans hopen) Bool.true_eq_false.mp

/-- Whatever the host does, the counts agree afterwards. -/
theorem Balanced.settles (hs : s.Balanced) (hready : s.machine.Ready) (hrest : s.machine.AtRest) (hd : s.Permits d) :
    s.Settles (s.after (programs.host (k + 3)) d) := by
  obtain ⟨hm, h, hheld⟩ := hs
  cases d with
  | arrange stack =>
      have hconserves : ({ s.machine with stack } : Machine).Conserves s.objects s.held :=
        h.of_heap rfl rfl rfl (.refl _)
      exact .of_drops hconserves (drops_of_eq rfl (targets_congr rfl rfl rfl rfl)) (.of_eq rfl rfl rfl rfl rfl rfl)
  | make name value => exact make_settles h hm name value
  | retain a =>
      obtain ⟨ha, hlive, hfits⟩ := hd
      obtain ⟨hconserves, hdrops⟩ := h.retain ha hlive hfits
      exact ⟨hconserves, hdrops, hconserves.tallies.gone, fun _ => .of_eq rfl rfl rfl rfl rfl rfl⟩
  | release a =>
      have hne : a ≠ 0 := fun hzero => hheld (hzero ▸ hd)
      obtain ⟨hconserves, hdrops⟩ := h.release hd hne
      refine ⟨hconserves, hdrops, hconserves.tallies.gone, fun _ => ?_⟩
      obtain ⟨journal, heq⟩ := s.machine.release_eq a
      change s.machine.Keeps (s.machine.release a)
      rw [heq]
      exact .of_eq rfl rfl rfl rfl rfl rfl
  | create name source => exact create_settles h hm hready hrest name source hd
  | assign i target => exact assign_settles h i target hd
  | assignFrom i source => exact assignFrom_settles h hm hready hrest i source hd
  | collect => exact collect_settles h hm hrest hd
  | close => exact close_settles h hrest hd

/-- Whatever the host does, the machine stays one that a host can bring about. -/
theorem reachable_after {host : Host} (hhost : host.Lawful) (hm : s.machine.Reachable) (hrest : s.machine.AtRest)
    (d : Deed) : (s.after host d).machine.Reachable := by
  have hlawful : ∀ {d : Deed}, d.run.Lawful → (s.after host d).machine.Reachable := fun hd => hm.after hd hhost
  cases d with
  | arrange stack =>
      have hbase : s.machine.base = 0 := by
        rw [base, hrest.frames]
      exact hm.runs (.change (.stack stack (hbase ▸ Nat.zero_le _) fun i hi =>
        absurd (hbase ▸ hi) (Nat.not_lt_zero i)))
  | make name value => exact hlawful (.bind (.modifyGet fun _ => leads_newCounted) fun _ => .pure _)
  | retain a => exact hlawful (.modify fun _ => leads_retain)
  | release a => exact hlawful (.modify fun _ => leads_release)
  | create name source => exact hlawful (Act.newInstance_lawful _ _ _)
  | assign i target => exact hlawful (.lift (Op.setSharedTarget_lawful _ _ _))
  | assignFrom i source => exact hlawful (Act.setSharedFrom_lawful _ _ _)
  | collect => exact hlawful (.bind Act.collect_lawful fun _ => .pure _)
  | close => exact hlawful Act.close_lawful

theorem Balanced.next {s' : Ledger} (hs : s.Balanced) (hready : s.machine.Ready)
    (hnext : Next (programs.host (k + 3)) s s') : s'.Balanced := by
  obtain ⟨d, hrest, hd⟩ := hnext
  refine ⟨reachable_after (Programs.host_lawful _) hs.reachable hrest d, (hs.settles hready hrest hd).conserves,
    fun hzero => ?_⟩
  cases d with
  | retain a =>
      rcases List.mem_cons.mp hzero with rfl | hin
      · exact (hs.conserves.tallies.object 0 hd.1).1 rfl
      · exact hs.held hin
  | release a => exact hs.held (List.mem_of_mem_erase hzero)
  | arrange | make | create | assign | assignFrom | collect | close => exact hs.held hzero

/-- At first there are neither instances nor objects. -/
theorem Balanced.start (hm : m.Reachable) (hinstances : m.instances = []) (hdestroyed : m.destroyed = []) :
    Balanced ⟨m, [], []⟩ := by
  have htargets : m.targets = [] := by
    rw [targets, hinstances]
    rfl
  refine ⟨hm, ⟨hm.heap_sound, fun slot u hin => ?_, hm.heap_sound.memory, fun a ha => ?_, fun a ha => ?_,
    fun a ha => ?_, fun a ha => ?_⟩, List.not_mem_nil⟩
  · rw [hinstances] at hin
    cases hin
  · cases ha
  · rw [htargets] at ha
    cases ha
  · rw [hdestroyed] at ha
    cases ha
  · cases ha

theorem owners_eq (s : Ledger) (a : Address) : s.owners a = (s.machine.targets ++ s.held).count a := by
  rw [List.count_append, targets, List.count, List.countP_map]
  rfl

theorem owners_pos {a : Address} : 0 < s.owners a ↔ a ∈ s.machine.targets ++ s.held := by
  rw [owners_eq, List.count_pos_iff]

/-- Exactly those objects are destroyed on the way that lose their last owner. -/
theorem Settles.destroyed_iff {s' : Ledger} {a : Address} (h : s.Settles s')
    (hs : s.machine.Conserves s.objects s.held) (ha : a ∈ s'.objects) :
    a ∈ s'.machine.destroyed ↔ a ∈ s.machine.destroyed ∨ 0 < s.owners a ∧ s'.owners a = 0 := by
  have howners : s'.owners a = 0 ↔ a ∉ s'.machine.targets ++ s'.held := by
    rw [← owners_pos, Nat.pos_iff_ne_zero, ne_eq, not_not]
  rw [owners_pos, howners]
  by_cases hknown : a ∈ s.objects
  · exact h.drops a hknown
  · -- What is new has no owner before, and is not destroyed.
    have hne := (h.conserves.tallies.object a ha).1
    refine iff_of_false (fun hgone => hknown (h.gone a hgone)) ?_
    rintro (hgone | ⟨hin, -⟩)
    · exact hknown (hs.tallies.gone a hgone)
    · exact hknown (hs.tallies.known a hin hne).1

/-- An assignment that fails changes no object and no instance. -/
theorem Balanced.failed {e : ScriptError} (hs : s.Balanced) (hready : s.machine.Ready)
    (hrest : s.machine.AtRest) (hd : s.Permits d)
    (hassign : (∃ i target, d = .assign i target) ∨ ∃ i source, d = .assignFrom i source)
    (hrun : d.run (programs.host (k + 1)) s.machine = .error e m') :
    m'.heap.memory = s.machine.heap.memory ∧ m'.destroyed = s.machine.destroyed := by
  rcases hassign with ⟨i, target, rfl⟩ | ⟨i, source, rfl⟩
  · have hfail : Op.setSharedTarget i target true s.machine = .error e m' := hrun
    cases haddress : s.machine.address? (s.machine.value i) with
    | none =>
        obtain ⟨e', hfail'⟩ : ∃ e', Op.setSharedTarget i target true s.machine = .error e' s.machine :=
          Op.setSharedTarget_error haddress
        cases hfail.symm.trans hfail'
        exact ⟨rfl, rfl⟩
    | some block =>
        rw [Op.setSharedTarget_eq haddress] at hfail
        cases hfail
  · obtain ⟨-, -, hlive⟩ := hd
    have hended := Act.setSharedFrom_ended programs k i source true hs.reachable.framed hrest.guards hready rfl
      (hlive.proper hs.conserves)
    have hfail : Act.setSharedFrom i source true (programs.host (k + 1)) s.machine = .error e m' := hrun
    rw [hfail] at hended
    exact ⟨congrArg Heap.memory hended.heap, hended.destroyed⟩

end Ledger

namespace Machine

open Ledger

/-- Whatever a host does outside of native functions, from a machine without instances on, references are
    conserved. The count of an object that is not destroyed is the number of instances that point to it and need
    their finalizer still, and of the references that the host holds. No instance points to a destroyed object. In
    each step exactly those objects are destroyed for which that number was positive and becomes zero. An
    assignment that fails changes neither a block nor a count. And classes stay what they were while the machine is
    open. A host has to leave room on the stack where a cycle may run, in a collection or in the creation of an
    instance: at the limit of slots a finalizer is not called. -/
theorem Reachable.counts_balanced {m : Machine} (hm : m.Reachable) (hinstances : m.instances = [])
    (hdestroyed : m.destroyed = []) (hready : m.Ready) (programs : Programs) (k : Nat) {s : Ledger}
    (hs : Relation.ReflTransGen (Next (programs.host (k + 3))) ⟨m, [], []⟩ s) :
    (∀ a ∈ s.objects, a ∉ s.machine.destroyed → (s.machine.counted a).count = s.owners a) ∧
    (∀ slot u, (slot, u) ∈ s.machine.instances → s.machine.target u ≠ 0 →
      s.machine.target u ∈ s.objects ∧ s.machine.target u ∉ s.machine.destroyed) ∧
    (∀ s', s.Next (programs.host (k + 3)) s' → ∀ a ∈ s'.objects,
      a ∈ s'.machine.destroyed ↔ a ∈ s.machine.destroyed ∨ 0 < s.owners a ∧ s'.owners a = 0) ∧
    (∀ d e m', s.machine.AtRest → s.Permits d →
      ((∃ i target, d = .assign i target) ∨ ∃ i source, d = .assignFrom i source) →
      d.run (programs.host (k + 3)) s.machine = .error e m' →
        m'.heap.memory = s.machine.heap.memory ∧ m'.destroyed = s.machine.destroyed) ∧
    (s.machine.closed = false → ∀ name h size, m.HasClass name h size → s.machine.HasClass name h size) := by
  have hrun : s.Balanced ∧ (s.machine.closed = false → m.Keeps s.machine) := by
    induction hs with
    | refl => exact ⟨.start hm hinstances hdestroyed, fun _ => .refl m⟩
    | tail _ hnext ih =>
        obtain ⟨hbalanced, hkeeps⟩ := ih
        obtain ⟨d, hrest, hd⟩ := hnext
        have hkept := hkeeps hrest.closed
        exact ⟨hbalanced.next (hkept.ready hready) ⟨d, hrest, hd⟩,
          fun hopen => hkept.trans ((hbalanced.settles (hkept.ready hready) hrest hd).keeps hopen)⟩
  obtain ⟨hbalanced, hkeeps⟩ := hrun
  have hconserves := hbalanced.conserves
  refine ⟨fun a ha hlive => ?_, fun slot u hin hne => ?_, fun s' hnext a ha => ?_,
    fun d e m' hrest hd hassign hfail => ?_, fun hopen => (hkeeps hopen).hasClass⟩
  · rw [owners_eq]
    exact hconserves.tallies.count a ha hlive
  · exact hconserves.tallies.known _ (List.mem_append_left _ (mem_targets.mpr ⟨slot, u, hin, rfl⟩)) hne
  · obtain ⟨d, hrest, hd⟩ := hnext
    exact (hbalanced.settles ((hkeeps hrest.closed).ready hready) hrest hd).destroyed_iff hconserves ha
  · exact hbalanced.failed ((hkeeps hrest.closed).ready hready) hrest hd hassign hfail

/-! ## A class of boxes -/

/-- A machine with one more function of the library. -/
def equip (m : Machine) (code : NativeCode) : Machine :=
  let f : Closure Native := { body := { behaviour := .code code, origin := .host }, upvalues := #[] }
  { m with heap := (m.heap.newFunction f).2 }

/-- The strings that a class of boxes needs. -/
def boxingNames : List String :=
  [BoundType.shared.boxedName, Class.markerField, Class.sizeField, Class.constructorField]

def boxingFunctions : List NativeCode := Class.codes ++ [.hook .retainSource, .hook .releaseTarget]

/-- The entries of its metatable. -/
def boxingEntries : List (StringId × Value) :=
  [(6, .bool true), (7, .int 8), (8, .function 3), (Metafield.finalizer.id, .function 4)]

/-- A machine with the functions of the library and a class whose instances retain the object behind their
    source. -/
def boxing : Machine :=
  let m := boxingNames.foldl (fun m name => (m.intern (Utf8.encode name)).2) (create {})
  let m := boxingFunctions.foldl equip m
  let m := { m with heap := m.heap.newTable.2 }
  let m := boxingEntries.foldl (fun m e => m.setEntry 2 (.string e.1) e.2) m
  let m := m.setEntry m.registry (.string 5) (.table 2)
  { m with cache := { entries := [(.token 1, .function 0), (.token 2, .function 1), (.token 3, .function 2)] } }

theorem boxing_reachable : boxing.Reachable := by
  have hnamed := List.foldlRecOn (motive := Machine.Reachable) boxingNames
    (fun m name => (m.intern (Utf8.encode name)).2) (reachable_create {})
    fun m hm _ _ => hm.runs (leads_intern hm.framed)
  have hequipped := List.foldlRecOn (motive := Machine.Reachable) boxingFunctions equip hnamed
    fun m hm _ _ => hm.runs (leads_heap (.newFunction _) hm.framed)
  have htable := hequipped.runs (leads_heap .newTable hequipped.framed)
  have hclass := List.foldlRecOn (motive := Machine.Reachable) boxingEntries
    (fun m e => m.setEntry 2 (.string e.1) e.2) htable fun m hm _ _ => hm.runs (leads_setEntry hm.framed)
  refine (hclass.runs (leads_setEntry hclass.framed)).runs (.change (.cache _ fun code v hv => ?_))
  cases hv

theorem boxing_strings :
    boxing.strings.strings = ((Metafield.all.map Metafield.text ++ boxingNames).map Utf8.encode).toArray := by
  have hreserved : (create {}).strings.strings = (Metafield.all.map fun f => Utf8.encode f.text).toArray := by
    have hdistinct : (Metafield.all.map fun f => Utf8.encode f.text).Nodup := by decide +kernel
    have hall := StringPool.strings_internAll StringPool.sound_empty hdistinct fun b _ id hid => by simp at hid
    exact hall.trans (by simp)
  have hnew : ∀ b ∈ boxingNames.map Utf8.encode, b ∉ Metafield.all.map fun f => Utf8.encode f.text := by
    decide +kernel
  have hdistinct : (boxingNames.map Utf8.encode).Nodup := by decide +kernel
  have hall := StringPool.strings_internAll (reachable_create {}).named.sound hdistinct fun b hb id hid => by
      rw [hreserved] at hid
      exact hnew b hb (List.mem_of_getElem? (by simpa using hid))
  refine Eq.trans hall ?_
  rw [hreserved]
  simp

theorem boxing_ready : boxing.Ready := by
  refine ⟨boxing_reachable.named.sound, fun code hcode => .inl ?_⟩
  simp only [Class.codes, Class.functions, List.map_cons, List.map_nil, List.mem_cons, List.not_mem_nil,
    or_false] at hcode
  rcases hcode with rfl | rfl | rfl <;> exact ⟨_, rfl, _, _, rfl, rfl, rfl⟩

theorem boxing_string {id : Nat} {bytes : Bytes}
    (h : ((Metafield.all.map Metafield.text ++ boxingNames).map Utf8.encode).toArray[id]? = some bytes) :
    boxing.strings.strings[id]? = some bytes := by
  rw [boxing_strings]
  exact h

theorem boxing_instantiates : boxing.Instantiates 2 .retainSource Memory.pointerSize := by
  refine ⟨⟨⟨_, 4, _, rfl, rfl, rfl, rfl⟩, ⟨6, boxing_string rfl, rfl⟩, fun id hid => ?_⟩,
    ⟨7, boxing_string rfl, rfl⟩, Nat.le_refl _, 3, _, ⟨8, boxing_string rfl, rfl⟩, rfl, rfl⟩
  obtain rfl : id = 5 := by
    by_contra hne
    have hother : (Key.string id == .string 5) = false := by simpa using hne
    change Table.entryValue [(.string 5, .table 2)] (.string id) = _ at hid
    simp [Table.entryValue, List.lookup_cons, List.lookup_nil, hother] at hid
  exact ⟨_, boxing_string rfl, by decide +kernel⟩

theorem boxing_hasClass : boxing.HasClass BoundType.shared.boxedName .retainSource Memory.pointerSize :=
  ⟨2, ⟨5, boxing_string rfl, rfl⟩, boxing_instantiates⟩

/-- An object that the host holds, and an instance that is created for it. -/
theorem boxing_counts_balanced : ∃ s : Ledger, ∃ a ∈ s.objects,
    Relation.ReflTransGen (Next (Programs.host [] 3)) ⟨boxing, [], []⟩ s ∧ s.held = [a] ∧
      a ∉ s.machine.destroyed ∧ (s.machine.counted a).count = s.owners a := by
  let a := boxing.heap.memory.frontier
  let made : Ledger := after (Programs.host [] 3) ⟨boxing, [], []⟩ (.make "a" 5)
  let owned : Ledger := made.after (Programs.host [] 3) (.retain a)
  let boxed : Ledger := owned.after (Programs.host [] 3) (.create BoundType.shared.boxedName (.handle a))
  have hmade : Next (Programs.host [] 3) ⟨boxing, [], []⟩ made := .deed _ ⟨rfl, rfl, rfl⟩ trivial
  have hmadeFrontier : made.machine.heap.memory.frontier = 99213744537648 := by decide +kernel
  have hownedFrontier : owned.machine.heap.memory.frontier = 99213744537648 := by decide +kernel
  have howned : made.Next (Programs.host [] 3) owned := by
    refine .deed _ ⟨rfl, rfl, rfl⟩ ⟨List.mem_singleton.mpr rfl, List.not_mem_nil, ?_⟩
    rw [Fits, hmadeFrontier]
    decide
  have hclass : owned.machine.HasClass BoundType.shared.boxedName .retainSource Memory.pointerSize :=
    boxing_hasClass.of_eq rfl rfl rfl (.refl _)
  have hfeeds : ∀ v ∈ (Source.handle a).value? owned.machine.value,
      owned.machine.Feeds owned.objects owned.held .retainSource v := by
    intro v hv
    obtain rfl : .light a = v := Option.some.inj hv
    refine ⟨⟨fun slot heq => (by cases heq), fun b heq => ?_⟩, fun b heq => .inl ?_, fun h => (by cases h)⟩
    · cases heq
      exact ⟨List.mem_singleton.mpr rfl, List.not_mem_nil⟩
    · cases heq
      exact List.mem_singleton.mpr rfl
  have hboxed : owned.Next (Programs.host [] 3) boxed := by
    refine .deed _ ⟨rfl, rfl, rfl⟩ ⟨?_, ?_, .retainSource, by decide, Memory.pointerSize,
      hclass.produces boxing_reachable.named.sound, ?_, hfeeds⟩
    · decide +kernel
    · decide +kernel
    · rw [hownedFrontier]
      decide
  have howning := (Relation.ReflTransGen.single hmade).tail howned
  obtain ⟨-, -, hdestroyed, -⟩ := boxing_reachable.counts_balanced rfl rfl boxing_ready [] 0 howning
  obtain ⟨hcount, -⟩ := boxing_reachable.counts_balanced rfl rfl boxing_ready [] 0 (howning.tail hboxed)
  have hin : a ∈ boxed.objects := List.mem_append_right _ (List.mem_singleton.mpr rfl)
  have hlive : a ∉ boxed.machine.destroyed := by
    intro hgone
    rcases (hdestroyed boxed hboxed a hin).mp hgone with hgone | ⟨-, hnone⟩
    · exact List.not_mem_nil hgone
    · have hheld : 0 < boxed.owners a :=
        owners_pos.mpr (List.mem_append_right _ (List.mem_singleton.mpr rfl))
      exact absurd hnone (Nat.ne_of_gt hheld)
  exact ⟨boxed, a, hin, howning.tail hboxed, rfl, hlive, hcount a hin hlive⟩

end Machine

end ScriptHost
