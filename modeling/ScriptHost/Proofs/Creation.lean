import ScriptHost.Proofs.Provision

/-! # Making instances

The library makes an instance with the metatable of its class and calls the constructor of the class, which
takes a target for it. A cycle may run before the instance is made; what the source of the target needs to
live on is reached then, or held by the host.
-/

namespace ScriptHost

open Machine

namespace Machine

variable {m m' m'' : Machine} {objects held : List Address} {slot mt size : Nat} {v : Value} {a : Address}
  {h : Hook} {kept : Ref → Prop} {name : String}

/-! ## Sources -/

/-- Of what a value leads to, instances need their finalizer still, and objects are not destroyed. -/
structure Live (m : Machine) (objects : List Address) (v : Value) : Prop where
  owned : ∀ slot, v = .userdata slot → ∃ u, (slot, u) ∈ m.instances
  handle : ∀ a, v = .light a → a ∈ objects ∧ a ∉ m.destroyed

/-- No cycle can destroy an object: the host holds it, or nobody does, or an instance does that is reached. -/
def Secure (m : Machine) (held : List Address) (a : Address) : Prop :=
  a ∈ held ∨ a ∉ m.targets ∨ ∃ slot u, (slot, u) ∈ m.instances ∧ m.target u = a ∧ m.Reached ⟨.userdata, slot⟩

theorem Live.proper (hv : m.Live objects v) (h : m.Conserves objects held) : m.Proper v := by
  intro slot heq
  obtain ⟨u, hin⟩ := hv.owned slot heq
  obtain ⟨-, mt, hmt, hclass⟩ := h.boxed slot u hin
  exact ⟨u, mt, (mem_instances.mp hin).1, hmt, hclass⟩

theorem Live.behind (hv : m.Live objects v) (h : m.Conserves objects held) (hbehind : m.Behind v a) :
    a ∈ objects ∧ a ∉ m.destroyed := by
  obtain ⟨hne, rfl | ⟨slot, u, rfl, hu, rfl⟩⟩ := hbehind
  · exact hv.handle a rfl
  · obtain ⟨u', hin⟩ := hv.owned slot rfl
    obtain rfl : u = u' := Option.some.inj (hu.symm.trans (mem_instances.mp hin).1)
    exact h.tallies.known _ (List.mem_append_left _ (mem_targets.mpr ⟨slot, u, hin, rfl⟩)) hne

theorem Live.passes (hv : m.Live objects v) (hpasses : m.Passes m') : m'.Live objects v := by
  refine ⟨fun slot heq => ?_, fun a heq => ?_⟩
  · rw [hpasses.instances]
    exact hv.owned slot heq
  · rw [hpasses.destroyed]
    exact hv.handle a heq

/-- A source lives on when a cycle keeps what is reached. -/
theorem Live.sheds (hv : m.Live objects v) (hsecure : ∀ a, v = .light a → m.Secure held a) (hroot : m.IsRoot v)
    (hsheds : m.Sheds m' objects held kept) (hkept : ∀ r, m.Reached r → kept r) : m'.Live objects v := by
  refine ⟨?_, ?_⟩
  · rintro slot rfl
    obtain ⟨u, hin⟩ := hv.owned slot rfl
    exact ⟨u, (hsheds.instances slot u).mpr ⟨hkept _ (.start hroot rfl), hin⟩⟩
  · rintro a rfl
    obtain ⟨hin, hlive⟩ := hv.handle a rfl
    refine ⟨hin, fun hgone => ?_⟩
    obtain ⟨howned, hlost⟩ := ((hsheds.drops a hin).mp hgone).resolve_left hlive
    rcases hsecure a rfl with hheld | hnobody | ⟨slot, u, hu, rfl, hreached⟩
    · exact hlost (List.mem_append_right _ hheld)
    · exact hlost (List.mem_append_right _ ((List.mem_append.mp howned).resolve_left hnobody))
    · have hthere := (hsheds.instances slot u).mpr ⟨hkept _ hreached, hu⟩
      exact hlost (List.mem_append_left _ (mem_targets.mpr ⟨slot, u, hthere, hsheds.target slot u hthere⟩))

theorem Live.withInstance (hv : m.Live objects v) (hm : m.heap.Sound) (hclass : m.SharedClass mt) :
    (m.withInstance size mt).Live objects v := by
  refine ⟨fun slot heq => ?_, hv.handle⟩
  obtain ⟨u, hin⟩ := hv.owned slot heq
  exact ⟨u, (mem_instances_withInstance hm hclass).mpr (.inr hin)⟩

/-! ## Classes -/

/-- A class whose instances have so many bytes and take their target with a hook. -/
structure Instantiates (m : Machine) (mt : Nat) (h : Hook) (size : Nat) : Prop where
  shared : m.SharedClass mt
  bytes : m.Entry mt Class.sizeField (.int size)
  room : Memory.pointerSize ≤ size
  constructor : ∃ g fn, m.Entry mt Class.constructorField (.function g) ∧ m.heap.function? g = some fn ∧
    fn.body.behaviour = .code (.hook h)

theorem Instantiates.of_kept (hmakes : m.Instantiates mt h size)
    (tables : ∀ s, kept ⟨.table, s⟩ → m'.heap.tables.get? s = m.heap.tables.get? s)
    (functions : ∀ s, kept ⟨.function, s⟩ → m'.heap.function? s = m.heap.function? s)
    (hstep : ∀ {r v r'}, kept r → m.heap.Holds r v → v.ref? = some r' → kept r') (hmt : kept ⟨.table, mt⟩)
    (hregistry : kept ⟨.table, m.registry⟩) (registry : m'.registry = m.registry)
    (strings : m'.strings = m.strings) : m'.Instantiates mt h size := by
  have htable : m'.heap.table mt = m.heap.table mt := by rw [Heap.table, Heap.table, tables mt hmt]
  have hentry : ∀ {name : String} {v : Value}, m.Entry mt name v → m'.Entry mt name v := by
    rintro name v ⟨id, hid, hget⟩
    exact ⟨id, strings ▸ hid, htable ▸ hget⟩
  obtain ⟨g, fn, hcons, hfn, hhook⟩ := hmakes.constructor
  have hg : kept ⟨.function, g⟩ := by
    obtain ⟨id, -, hget⟩ := hcons
    have hheld : m.heap.Holds ⟨.table, mt⟩ ((m.heap.table mt).get (.string id)) :=
      Heap.holds_get (by rw [hget]; rfl)
    rw [hget] at hheld
    exact hstep hmt hheld rfl
  exact ⟨hmakes.shared.of_kept tables functions hstep hmt hregistry registry strings, hentry hmakes.bytes,
    hmakes.room, g, fn, hentry hcons, (functions g hg).trans hfn, hhook⟩

theorem Entry.of_eq (hentry : m.Entry slot name v) (tables : m'.heap.tables = m.heap.tables)
    (strings : m.strings.Extends m'.strings) : m'.Entry slot name v := by
  obtain ⟨id, hid, hget⟩ := hentry
  exact ⟨id, strings id _ hid, by rw [Heap.table, tables]; exact hget⟩

theorem Instantiates.of_eq (hmakes : m.Instantiates mt h size) (tables : m'.heap.tables = m.heap.tables)
    (functions : m'.heap.functions = m.heap.functions) (registry : m'.registry = m.registry)
    (strings : m.strings.Extends m'.strings) : m'.Instantiates mt h size := by
  obtain ⟨g, fn, hcons, hfn, hhook⟩ := hmakes.constructor
  refine ⟨hmakes.shared.of_eq tables functions registry strings, hmakes.bytes.of_eq tables strings, hmakes.room, g, fn,
    hcons.of_eq tables strings, ?_, hhook⟩
  rw [Heap.function?, functions]
  exact hfn

/-- A class is registered under a name, and makes its instances with a hook. -/
def HasClass (m : Machine) (name : String) (h : Hook) (size : Nat) : Prop :=
  ∃ mt, m.Entry m.registry name (.table mt) ∧ m.Instantiates mt h size

theorem HasClass.of_eq (hclass : m.HasClass name h size) (tables : m'.heap.tables = m.heap.tables)
    (functions : m'.heap.functions = m.heap.functions) (registry : m'.registry = m.registry)
    (strings : m.strings.Extends m'.strings) : m'.HasClass name h size := by
  obtain ⟨mt, hentry, hmakes⟩ := hclass
  exact ⟨mt, registry ▸ hentry.of_eq tables strings, hmakes.of_eq tables functions registry strings⟩

/-! ## What a cycle leaves -/

/-- What is found through the roots is found after a cycle. -/
theorem Sheds.ready (hsheds : m.Sheds m' objects held kept) (hkept : ∀ r, m.Reached r → kept r)
    (hready : m.Ready) : m'.Ready := by
  obtain ⟨heap, events, destroyed, journal, heq⟩ := hsheds.eq
  refine ⟨by rw [heq]; exact hready.strings, fun code hcode => ?_⟩
  refine (hready.found code hcode).of_kept m.Reached (fun s hs => ?_) (fun s hs => hsheds.functions s (hkept _ hs))
    (fun hv hr => .start hv hr) (fun hr hv hr' => hr.step hv hr') (by rw [heq]; exact .refl _) (by rw [heq])
    (by rw [heq])
  rw [Heap.table, Heap.table, hsheds.tables s (hkept _ hs)]

theorem Sheds.instantiates (hsheds : m.Sheds m' objects held kept) (hkept : ∀ r, m.Reached r → kept r)
    (hmt : m.Reached ⟨.table, mt⟩) (hmakes : m.Instantiates mt h size) : m'.Instantiates mt h size := by
  obtain ⟨heap, events, destroyed, journal, heq⟩ := hsheds.eq
  have htables : ∀ s, m.Reached ⟨.table, s⟩ → m'.heap.tables.get? s = m.heap.tables.get? s :=
    fun s hs => hsheds.tables s (hkept _ hs)
  exact hmakes.of_kept htables (fun s hs => hsheds.functions s (hkept _ hs)) (fun hr hv hr' => hr.step hv hr') hmt
    (.start .registry rfl) (by rw [heq]) (by rw [heq])

theorem HasClass.sheds (hclass : m.HasClass name h size) (hsheds : m.Sheds m' objects held kept)
    (hkept : ∀ r, m.Reached r → kept r) : m'.HasClass name h size := by
  obtain ⟨mt, ⟨id, hid, hget⟩, hmakes⟩ := hclass
  have hregistry : m.Reached ⟨.table, m.registry⟩ := .start .registry rfl
  have hmt : m.Reached ⟨.table, mt⟩ := by
    have hheld : m.heap.Holds ⟨.table, m.registry⟩ ((m.heap.table m.registry).get (.string id)) :=
      Heap.holds_get (by rw [hget]; rfl)
    rw [hget] at hheld
    exact hregistry.step hheld rfl
  have htable : m'.heap.table m.registry = m.heap.table m.registry := by
    rw [Heap.table, Heap.table, hsheds.tables _ (hkept _ hregistry)]
  obtain ⟨heap, events, destroyed, journal, heq⟩ := hsheds.eq
  have hsame : m'.registry = m.registry := by rw [heq]
  refine ⟨mt, ⟨id, by rw [heq]; exact hid, ?_⟩, hsheds.instantiates hkept hmt hmakes⟩
  rw [hsame, htable, hget]

/-! ## What making an instance leaves behind -/

/-- On the way there may have been a cycle, which keeps what is reached, and then owners and objects may have
    become more. -/
def Conveys (m m' : Machine) (objects held : List Address) : Prop :=
  ∃ m₁ m₂ kept objects', m.Passes m₁ ∧ m₁.Sheds m₂ objects held kept ∧ (∀ r, m₁.Reached r → kept r) ∧
    m₂.Gains m' objects objects' held

theorem Conveys.of_passes (h : m.Conserves objects held) (hpasses : m.Passes m') : m.Conveys m' objects held :=
  ⟨m', m', _, objects, hpasses, .refl (h.passes hpasses), fun _ _ => trivial,
    .of_passes (h.passes hpasses) (.refl m')⟩

theorem Conveys.passes (h : m.Conveys m' objects held) (hpasses : m'.Passes m'') : m.Conveys m'' objects held := by
  obtain ⟨m₁, m₂, kept, objects', hfirst, hsheds, hkept, hgains⟩ := h
  exact ⟨m₁, m₂, kept, objects', hfirst, hsheds, hkept, hgains.trans (.of_passes hgains.conserves hpasses)⟩

theorem Passes.conveys (hpasses : m.Passes m') (h : m'.Conveys m'' objects held) : m.Conveys m'' objects held := by
  obtain ⟨m₁, m₂, kept, objects', hfirst, hrest⟩ := h
  exact ⟨m₁, m₂, kept, objects', hpasses.trans hfirst, hrest⟩

theorem Sheds.conveys (hsheds : m.Sheds m' objects held kept) (hkept : ∀ r, m.Reached r → kept r)
    (h : m'.Gained m'' objects held) : m.Conveys m'' objects held := by
  obtain ⟨objects', hgains⟩ := h
  exact ⟨m, m', kept, objects', .refl m, hsheds, hkept, hgains⟩

theorem Conveys.guards (h : m.Conveys m' objects held) (hguards : m.guards = []) : m'.guards = [] := by
  obtain ⟨m₁, m₂, kept, objects', hfirst, hsheds, -, hgains⟩ := h
  obtain ⟨heap, events, destroyed, journal, rfl⟩ := hsheds.eq
  exact hgains.guards (hfirst.guards hguards)

theorem Conveys.ready (h : m.Conveys m' objects held) (hready : m.Ready) : m'.Ready := by
  obtain ⟨m₁, m₂, kept, objects', hfirst, hsheds, hkept, hgains⟩ := h
  exact hgains.ready (hsheds.ready hkept (hfirst.ready hready))

theorem Conveys.hasClass {hook : Hook} (h : m.Conveys m' objects held) (hclass : m.HasClass name hook size) :
    m'.HasClass name hook size := by
  obtain ⟨m₁, m₂, kept, objects', hfirst, hsheds, hkept, hgains⟩ := h
  have hbefore : m₁.HasClass name hook size :=
    hclass.of_eq (by rw [hfirst.heap]) (by rw [hfirst.heap]) hfirst.registry hfirst.strings
  exact (hbefore.sheds hsheds hkept).of_eq hgains.tables hgains.functions hgains.registry hgains.strings

/-- Of the objects there were, those are destroyed that lost their last owner in the cycle. -/
theorem Conveys.conserves (h : m.Conveys m' objects held) : ∃ objects', (∀ a ∈ objects, a ∈ objects') ∧
    m'.Conserves objects' held ∧ m.Drops m' objects held held ∧ ∀ a ∈ m'.destroyed, a ∈ objects := by
  obtain ⟨m₁, m₂, kept, objects', hfirst, hsheds, -, hgains⟩ := h
  have hgone : ∀ a ∈ m'.destroyed, a ∈ objects := by
    rw [hgains.destroyed]
    exact hsheds.conserves.tallies.gone
  refine ⟨objects', hgains.objects, hgains.conserves, fun a ha => ?_, hgone⟩
  have hdrops := hsheds.drops a ha
  have hne := (hsheds.conserves.tallies.object a ha).1
  rw [hfirst.destroyed, hfirst.targets] at hdrops
  rw [hgains.destroyed, hdrops]
  refine or_congr_right ⟨fun hlost => ⟨hlost.1, fun hin => ?_⟩, fun hlost => ⟨hlost.1, fun hin => ?_⟩⟩
  · -- What the cycle destroyed is not taken afterwards.
    refine (hgains.conserves.tallies.known a hin hne).2 ?_
    rw [hgains.destroyed, hdrops]
    exact .inr hlost
  · exact hlost.2 (hgains.owners a hin hne)

/-- A new instance takes nothing yet. -/
theorem withInstance_gains (hm : m.Conserves objects held) (hclass : m.SharedClass mt)
    (hroom : Memory.pointerSize ≤ size) : m.Gains (m.withInstance size mt) objects objects held := by
  obtain ⟨hconserves, -, htargets, -⟩ := hm.withInstance hclass hroom
  refine ⟨hconserves, fun _ ha => ha, rfl, fun a ha _ => ?_, fun h => h, rfl, rfl, rfl, .refl _,
    fun hready => hready.of_eq rfl rfl rfl rfl rfl⟩
  rcases List.mem_append.mp ha with ha | ha
  · exact List.mem_append_left _ (htargets.mem_iff.mpr (List.mem_cons_of_mem _ ha))
  · exact List.mem_append_right _ ha

/-- A new instance takes little more room than its bytes. -/
theorem frontier_withInstance (m : Machine) (size mt : Nat) :
    (m.withInstance size mt).heap.memory.frontier ≤ m.heap.memory.frontier + size + 33 := by
  have hfrontier := m.heap.memory.frontier_allocate .userdata (Array.replicate size 0)
  rw [Array.size_replicate] at hfrontier
  exact hfrontier

theorem passes_noteConstructed (m : Machine) (i : StackIndex) : m.Passes (m.noteConstructed i) := by
  unfold noteConstructed
  split
  · rw [note_eq]
    exact .of_eq rfl rfl rfl rfl rfl rfl id rfl rfl
  · exact .refl m

end Machine

/-! ## The constructor -/

namespace Act

variable {m : Machine} {f : Nat} {fn : Closure Native}

/-- A property that passes on is had by what a call comes to if its function leaves it behind. -/
theorem callAt_passing {P : Machine → Prop} (host : Host) (args : List Value) (wanted : Int)
    (hP : ∀ {m m' : Machine}, P m → m.Passes m' → P m') (hf : m.heap.function? f = some fn) (hm : P m)
    (hbody : Ended (fun _ left => P left) (fun left => P left ∧ left.guards = [])
      (host.enter fn.body.behaviour (m.inCall f args fn.body.origin))) :
    Ended (fun _ => P) P (callAt m.stack.size wanted host (m.pushCall f args)) := by
  by_cases hroom : (m.pushCall f args).atLimit = true
  · rw [callAt, invoke_eq, if_pos hroom]
    exact hP hm .pushCall
  · have henters := enters_inCall (Bool.eq_false_iff.mpr hroom) hf
    cases hrun : host.enter fn.body.behaviour (m.inCall f args fn.body.origin) with
    | ok n left =>
        rw [hrun] at hbody
        rw [henters.returns hrun wanted]
        exact hP hbody (.returnResults _ _ _)
    | error e left =>
        rw [hrun] at hbody
        rw [henters.fails hrun wanted]
        exact hP hbody.1 (passes_failed e hbody.2)

variable {programs : Programs} {k slot mt g : Nat} {objects held : List Address} {u : Userdata} {h : Hook}
  {below : List Value} {fv nv : Value} {src : Option Value}

/-- The second argument of a function, if there is one. -/
theorem value_inCall_second {v : Value} {o : Origin} :
    (m.inCall g (v :: src.toList) o).value (.fromBottom 2) = src.getD .nil := by
  cases src with
  | none =>
      have hl : Laid (m.stack.size + 1) (m.stack.toList ++ [.function g, v])
          (m.inCall g (v :: (none : Option Value).toList) o) := laid_inCall
      refine value_of_position? (if_neg fun hin => ?_)
      have hsize := hl.size
      rw [List.length_append, Array.length_toList] at hsize
      rw [hl.base, hsize] at hin
      simp only [List.length_cons, List.length_nil] at hin
      omega
  | some w =>
      have hl : Laid (m.stack.toList.length + 1) (m.stack.toList ++ .function g :: v :: [w])
          (m.inCall g [v, w] o) := by
        rw [Array.length_toList]
        exact laid_inCall
      exact hl.arguments.2

/-- The constructor of a class takes a target for a new instance. -/
theorem hook_gains (hh : h ∈ takers) (hguards : m.guards = []) (hready : m.Ready) (hm : m.Conserves objects held)
    (hin : (slot, u) ∈ m.instances) (hnull : m.target u = 0)
    (hfits : m.heap.memory.frontier + held.length + 128 ≤ 2 ^ 64) (hpos : m.heap.memory.frontier ≠ 0)
    (hlive : ∀ v ∈ src, m.Live objects v) (hboxes : h = .shareTarget → ∀ v ∈ src, ∀ a, v ≠ .light a)
    {o : Origin} : Ended (fun _ left => m.Gained left objects held)
      (fun left => m.Gained left objects held ∧ left.guards = [])
      (runHook h (programs.host (k + 1)) (m.inCall g (.userdata slot :: src.toList) o)) := by
  have hinside : m.Passes (m.inCall g (.userdata slot :: src.toList) o) := .inCall
  have hconserves := hm.passes hinside
  have hlive' : (m.inCall g (.userdata slot :: src.toList) o).Live objects (src.getD .nil) := by
    cases src with
    | none => exact ⟨fun _ heq => (by cases heq), fun _ heq => (by cases heq)⟩
    | some v => exact (hlive v rfl).passes hinside
  have hbox : h = .shareTarget → ∀ a, src.getD .nil ≠ .light a := by
    intro hshare a
    cases src with
    | none => exact fun heq => by cases heq
    | some v => exact hboxes hshare v rfl a
  have hself : (m.inCall g (.userdata slot :: src.toList) o).address?
      ((m.inCall g (.userdata slot :: src.toList) o).value (.fromBottom 1)) = some u.address := by
    rw [value_inCall, address?, heap_inCall, (mem_instances.mp hin).1]
    rfl
  refine (runHook_ended hh framed_inCall (hinside.guards hguards) (hinside.ready hready) hself value_inCall_second
    (hlive'.proper hconserves) hbox).imp ?_ ?_
  · rintro n left ⟨m₁, new, htaken, rfl⟩
    refine hinside.gained hm (hconserves.take (hinside.instances ▸ hin) ?_ ?_ ?_ htaken fun a ha =>
      hlive'.behind hconserves ha)
    · rw [target, heap_inCall]
      exact hnull
    · rw [heap_inCall]
      exact hfits
    · rw [heap_inCall]
      exact hpos
  · intro left hleft
    exact ⟨.of_passes hm (hinside.trans hleft), (hinside.trans hleft).guards hguards⟩

/-- The constructor is called with the new instance and the arguments after the name of the class. -/
theorem callConstructor_gains (programs : Programs) (k : Nat) (hl : Laid (below.length + 1)
      (below ++ fv :: nv :: (src.toList ++ [.table mt, .userdata slot])) m)
    (hfn : m.heap.function? g = some fn) (hhook : fn.body.behaviour = .code (.hook h)) (hh : h ∈ takers)
    (hguards : m.guards = []) (hready : m.Ready) (hm : m.Conserves objects held)
    (hin : (slot, u) ∈ m.instances) (hnull : m.target u = 0)
    (hfits : m.heap.memory.frontier + held.length + 128 ≤ 2 ^ 64) (hpos : m.heap.memory.frontier ≠ 0)
    (hlive : ∀ v ∈ src, m.Live objects v) (hboxes : h = .shareTarget → ∀ v ∈ src, ∀ a, v ≠ .light a) :
    Ended (fun _ m' => m.Gained m' objects held) (fun m' => m.Gained m' objects held)
      (callConstructor (1 + src.toList.length) (.fromBottom (src.toList.length + 3)) (programs.host (k + 2))
        (m.push (.function g))) := by
  have hframed : m.Framed := by
    rw [Framed, hl.base, hl.size, List.length_append, List.length_cons]
    omega
  have hinstance : (m.push (.function g)).value (.fromBottom (src.toList.length + 3)) = .userdata slot := by
    have hl' : Laid (below.length + 1) ((below ++ fv :: nv :: (src.toList ++ [.table mt])) ++
        .userdata slot :: [.function g]) (m.push (.function g)) := by
      simpa using hl.push (v := .function g)
    refine hl'.value_fromBottom ?_ ?_
    · simp
    · simp
      omega
  have hargs : ((List.range src.toList.length).forM (fun i => modify (·.pushAt (.fromBottom (i + 2)))) :
      Act ScriptError PUnit) (programs.host (k + 2)) ((m.push (.function g)).push (.userdata slot)) =
        .ok ⟨⟩ (m.pushCall g (.userdata slot :: src.toList)) := by
    cases src with
    | none => rfl
    | some v =>
        have hl' : Laid (below.length + 1) ((below ++ [fv, nv]) ++ v :: [.table mt, .userdata slot, .function g,
            .userdata slot]) ((m.push (.function g)).push (.userdata slot)) := by
          simpa using (hl.push (v := .function g)).push (v := .userdata slot)
        have hv : ((m.push (.function g)).push (.userdata slot)).value (.fromBottom 2) = v :=
          hl'.value_fromBottom (by simp) (by simp)
        change EStateM.Result.ok _ (((m.push (.function g)).push (.userdata slot)).pushAt (.fromBottom 2)) = _
        rw [pushAt_of_value hv]
        rfl
  have hcall := callAt_passing (P := fun m' => m.Gained m' objects held) (programs.host (k + 2))
    (.userdata slot :: src.toList) 0 Gained.passes hfn (.of_passes hm (.refl m)) (by
      rw [hhook]
      exact hook_gains hh hguards hready hm hin hnull hfits hpos hlive hboxes)
  rw [callConstructor, run_bind, run_modify]
  dsimp only
  rw [pushAt_of_value hinstance, Nat.add_sub_cancel_left, bind_ok hargs]
  rw [← call_pushCall hframed (by rw [List.length_cons, Nat.add_comm])] at hcall
  refine hcall.next ?_ fun _ h => h
  intro u' m' hgained
  exact hgained.passes (passes_noteConstructed _ _)

/-- The metatable of the class lies above the name of the class and the source. -/
theorem value_class {rest : List Value}
    (hl : Laid (below.length + 1) (below ++ fv :: nv :: (src.toList ++ .table mt :: rest)) m) :
    m.value (.fromBottom (src.toList.length + 2)) = .table mt := by
  have hl' : Laid (below.length + 1) ((below ++ fv :: nv :: src.toList) ++ .table mt :: rest) m := by
    simpa using hl
  exact hl'.value_fromBottom (by simp) (by simp; omega)

/-- A new block is given the metatable of its class. -/
theorem setMetatable_newUserdata {size : Nat}
    (hl : Laid (below.length + 1) (below ++ fv :: nv :: (src.toList ++ [.table mt, .userdata slot]))
      (({ m with heap := (m.heap.newUserdata size).2 } : Machine).push (.userdata slot)))
    (hframed : m.Framed) (hslot : (m.heap.newUserdata size).1 = slot) :
    Op.setMetatable (.fromBottom (src.toList.length + 3))
        ((({ m with heap := (m.heap.newUserdata size).2 } : Machine).push (.userdata slot)).push (.table mt)) =
      .ok () ((m.withInstance size mt).push (.userdata slot)) := by
  let bare : Machine := { m with heap := (m.heap.newUserdata size).2 }
  have hbare : bare.Framed := hframed
  have hl' : Laid (below.length + 1) ((below ++ fv :: nv :: (src.toList ++ [.table mt])) ++
      .userdata slot :: [.table mt]) ((bare.push (.userdata slot)).push (.table mt)) := by
    simpa using hl.push (v := .table mt)
  have hinstance : ((bare.push (.userdata slot)).push (.table mt)).value (.fromBottom (src.toList.length + 3)) =
      .userdata slot := hl'.value_fromBottom (by simp) (by simp; omega)
  rw [setMetatable_eq (topValue_push (framed_push hbare)) hinstance]
  have hpop : (((bare.withMetatable slot mt).push (.userdata slot)).push (.table mt)).pop 1 =
      (bare.withMetatable slot mt).push (.userdata slot) := pop_push (framed_push hbare)
  simp only [withInstance, hslot]
  exact congrArg (EStateM.Result.ok ()) hpop

/-- A new block becomes an instance of the class whose metatable lies below it. -/
theorem construct_gains {size : Nat} (programs : Programs) (k : Nat)
    (hl : Laid (below.length + 1) (below ++ fv :: nv :: (src.toList ++ [.table mt])) m)
    (hmakes : m.Instantiates mt h size) (hh : h ∈ takers) (hguards : m.guards = []) (hready : m.Ready)
    (hm : m.Conserves objects held) (hfits : m.heap.memory.frontier + size + held.length + 192 ≤ 2 ^ 64)
    (hpos : m.heap.memory.frontier ≠ 0) (hlive : ∀ v ∈ src, m.Live objects v)
    (hboxes : h = .shareTarget → ∀ v ∈ src, ∀ a, v ≠ .light a) :
    Ended (fun _ m' => m.Gained m' objects held) (fun m' => m.Gained m' objects held)
      (construct (1 + src.toList.length) (.fromBottom (src.toList.length + 2)) (programs.host (k + 2))
        (({ m with heap := (m.heap.newUserdata size).2 } : Machine).push (.userdata (m.heap.newUserdata size).1))) := by
  generalize hslot : (m.heap.newUserdata size).1 = slot
  let bare : Machine := { m with heap := (m.heap.newUserdata size).2 }
  let made : Machine := (m.withInstance size mt).push (.userdata slot)
  have hframed : m.Framed := by
    rw [Framed, hl.base, hl.size, List.length_append, List.length_cons]
    omega
  have hbare : Laid (below.length + 1) (below ++ fv :: nv :: (src.toList ++ [.table mt, .userdata slot]))
      (bare.push (.userdata slot)) := by
    have hl' : Laid (below.length + 1) (below ++ fv :: nv :: (src.toList ++ [.table mt])) bare := hl.of_eq rfl rfl
    simpa using hl'.push (v := .userdata slot)
  have hmade : Laid (below.length + 1) (below ++ fv :: nv :: (src.toList ++ [.table mt, .userdata slot])) made :=
    hbare.of_eq rfl (by simp [made, bare, withInstance, withMetatable, push])
  have htop : (bare.push (.userdata slot)).top = src.toList.length + 3 := by
    rw [hbare.top]
    simp
    omega
  -- What the class says is the same for the machine with the instance.
  obtain ⟨g, fn, ⟨id, hid, hget⟩, hfn, hhook⟩ := hmakes.constructor
  have hread : Op.rawGetField (.fromBottom (src.toList.length + 2)) Class.constructorField made =
      .ok .function (made.push (.function g)) := by
    rw [rawGetField_found (value_class hmade) hready.strings hid]
    have hentry : (made.heap.table mt).get (.string id) = .function g := hget
    rw [hentry]
    rfl
  have hpushed : (m.withInstance size mt).Passes made := .push
  have hgains : m.Gains made objects objects held :=
    (withInstance_gains hm hmakes.shared hmakes.room).trans
      (.of_passes (hm.withInstance hmakes.shared hmakes.room).1 hpushed)
  have hnull := (hm.withInstance hmakes.shared hmakes.room).2.1
  have hthere : (slot, m.nextInstance size mt) ∈ made.instances := by
    rw [hpushed.instances]
    exact (mem_instances_withInstance hm.sound hmakes.shared).mpr (.inl (by rw [hslot]))
  have hroom : made.heap.memory.frontier + held.length + 128 ≤ 2 ^ 64 := by
    have hfrontier := frontier_withInstance m size mt
    have hsame : made.heap.memory.frontier = (m.withInstance size mt).heap.memory.frontier := rfl
    grind
  have hpos' : made.heap.memory.frontier ≠ 0 := fun hzero => hpos (Nat.eq_zero_of_add_eq_zero_right hzero)
  have hcons := callConstructor_gains programs k hmade hfn hhook hh hguards (hgains.ready hready) hgains.conserves
    hthere hnull hroom hpos' (fun v hv => ((hlive v hv).withInstance hm.sound hmakes.shared).passes hpushed) hboxes
  rw [construct, run_bind, run_get]
  dsimp only
  rw [htop, run_bind, run_modify]
  dsimp only
  rw [pushAt_of_value (value_class hbare), bind_ok (run_lift.trans (setMetatable_newUserdata hbare hframed hslot)),
    bind_ok (run_lift.trans hread)]
  rw [if_pos rfl]
  refine hcons.next ?_ fun m' hgained => hgains.gained hgained
  intro u m' hgained
  exact hgains.gained (hgained.passes .push)

/-- An instance of the class whose metatable is on top is made. -/
theorem instantiate_conveys {size : Nat} (programs : Programs) (k : Nat)
    (hl : Laid (below.length + 1) (below ++ fv :: nv :: (src.toList ++ [.table mt])) m)
    (hmakes : m.Instantiates mt h size) (hmt : m.Reached ⟨.table, mt⟩) (hh : h ∈ takers) (hguards : m.guards = [])
    (hready : m.Ready) (hopen : m.closed = false) (hm : m.Conserves objects held) (hroom : m.Spacious)
    (hfits : m.heap.memory.frontier + size + held.length + 192 ≤ 2 ^ 64) (hpos : m.heap.memory.frontier ≠ 0)
    (hlive : ∀ v ∈ src, m.Live objects v ∧ ∀ a, v = .light a → m.Secure held a)
    (hboxes : h = .shareTarget → ∀ v ∈ src, ∀ a, v ≠ .light a) :
    Ended (fun _ m' => m.Conveys m' objects held) (fun m' => m.Conveys m' objects held)
      (instantiate (1 + src.toList.length) (programs.host (k + 2)) m) := by
  have hframed : m.Framed := by
    rw [Framed, hl.base, hl.size, List.length_append, List.length_cons]
    omega
  have htop : m.top = src.toList.length + 2 := by
    rw [hl.top]
    simp
    omega
  have hread : Op.rawGetField (.fromBottom (src.toList.length + 2)) Class.sizeField m =
      .ok .number (m.push (.int size)) := by
    obtain ⟨id, hid, hget⟩ := hmakes.bytes
    rw [rawGetField_found (value_class hl) hready.strings hid, hget]
    rfl
  have hsize : (((m.push (.int size)).toInt? (m.push (.int size)).topValue).getD 0).toNat = size := by
    rw [topValue_push hframed]
    rfl
  obtain ⟨m₂, kept, hdue, hsheds, hkept⟩ := collectIfDue_sheds (ε := ScriptError)
    (show (programs.host (k + 2)).Lawful from Programs.host_lawful _) (programs.host_releases (k + 1)) hframed hroom
    hm (Nat.le_trans (by grind) hfits) hopen
  have hmade : (newUserdata size : Act ScriptError Address) (programs.host (k + 2)) m =
      .ok (((m₂.heap.newUserdata size).2.userdata? (m₂.heap.newUserdata size).1).map (·.address) |>.getD 0)
        (({ m₂ with heap := (m₂.heap.newUserdata size).2 } : Machine).push
          (.userdata (m₂.heap.newUserdata size).1)) := by
    rw [newUserdata, bind_ok hdue]
    rfl
  -- What the class and its source need is reached, and so the cycle keeps it.
  obtain ⟨heap, events, destroyed, journal, heq⟩ := hsheds.eq
  have hmakes₂ : m₂.Instantiates mt h size := hsheds.instantiates hkept hmt hmakes
  have hlive₂ : ∀ v ∈ src, m₂.Live objects v := by
    intro v hv
    obtain ⟨hlives, hsecure⟩ := hlive v hv
    refine hlives.sheds hsecure (.stack ?_) hsheds hkept
    rw [← Array.mem_toList_iff, hl.stack]
    simp [Option.mem_def.mp hv]
  have hl₂ : Laid (below.length + 1) (below ++ fv :: nv :: (src.toList ++ [.table mt])) m₂ :=
    hl.of_eq (by rw [heq]) (by rw [heq])
  have hconstruct := construct_gains programs k hl₂ hmakes₂ hh (by rw [heq]; exact hguards) (hsheds.ready hkept hready)
    hsheds.conserves
    (by rw [hsheds.frontier]; exact hfits) (by rw [hsheds.frontier]; exact hpos) hlive₂ hboxes
  rw [instantiate, run_bind, run_get]
  dsimp only
  rw [htop, bind_ok (run_lift.trans hread), run_bind, run_get]
  dsimp only
  rw [hsize, run_bind, run_modify]
  dsimp only
  rw [show (m.push (.int size)).pop 1 = m from pop_push hframed, bind_ok hmade]
  exact hconstruct.imp (fun _ _ hgained => hsheds.conveys hkept hgained) fun _ hgained => hsheds.conveys hkept hgained

end Act

end ScriptHost
