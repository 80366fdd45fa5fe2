import ScriptHost.Proofs.Composed

/-! # Frugal machines

Making a table, a function or a userdata first looks whether a cycle is due; boxing an integer does not.
So as long as cycles run no finalizers, a machine never has more allocations since the last cycle than its
interval allows, but for boxed integers. An operation is steady if it keeps this, for every host whose
functions keep it, and enters functions of the host on such machines only.
-/

namespace ScriptHost

namespace Machine

variable {m m' m'' : Machine} {h : Heap Native}

/-- Some cycle, or the closing, found a userdata that needed its finalizer. -/
def Finalizes (m : Machine) : Prop := ∃ slot serial, Event.queued slot serial ∈ m.events

/-- So many more objects may be made before the next look at the interval, boxed integers not counted. A
    closed machine has no cycles, and a finalizer may allocate as it likes before a cycle is due again. -/
def Allows (m : Machine) (spare : Nat) : Prop :=
  m.closed = true ∨ m.Finalizes ∨
    ∀ n, m.heap.interval = some n → m.heap.allocations + spare ≤ max n 2 + m.heap.boxed.live

/-- The allocations since the last cycle are as many as the interval allows, but for boxed integers. -/
structure Frugal (m : Machine) : Prop where
  sound : m.heap.Sound
  bound : m.Allows 0

/-- A step that keeps a machine frugal, and its log. -/
def Steady (m m' : Machine) : Prop := m.Frugal → m'.Frugal ∧ m.events <:+ m'.events

theorem Finalizes.of_suffix (hm : m.Finalizes) (h : m.events <:+ m'.events) : m'.Finalizes := by
  obtain ⟨slot, serial, hin⟩ := hm
  exact ⟨slot, serial, h.subset hin⟩

theorem Steady.refl (m : Machine) : Steady m m := fun hm => ⟨hm, List.suffix_refl _⟩

theorem Steady.trans (h : Steady m m') (h' : Steady m' m'') : Steady m m'' := by
  intro hm
  obtain ⟨hm', hlog⟩ := h hm
  obtain ⟨hm'', hlog'⟩ := h' hm'
  exact ⟨hm'', hlog.trans hlog'⟩

/-- A machine allows as many with a heap that took no more. -/
theorem Allows.of_le {spare spare' : Nat} (hm : m.Allows spare) (hclosed : m'.closed = m.closed)
    (hlog : m.events <:+ m'.events) (hinterval : m'.heap.interval = m.heap.interval)
    (hcost : m'.heap.allocations + spare' + m.heap.boxed.live ≤
      m.heap.allocations + spare + m'.heap.boxed.live) : m'.Allows spare' := by
  rcases hm with hm | hm | hm
  · exact .inl (hclosed.trans hm)
  · exact .inr (.inl (hm.of_suffix hlog))
  · refine .inr (.inr fun n hn => ?_)
    have hbound := hm n (hinterval ▸ hn)
    omega

theorem steady_of_eq (hheap : m'.heap = m.heap) (hclosed : m'.closed = m.closed)
    (hlog : m.events <:+ m'.events) : Steady m m' := by
  intro hm
  refine ⟨⟨hheap ▸ hm.sound, hm.bound.of_le hclosed hlog (by rw [hheap]) ?_⟩, hlog⟩
  rw [hheap]

/-- A change of the heap that makes no object. -/
theorem steady_change (hc : m.heap.Change h) (hinterval : h.interval = m.heap.interval)
    (hallocations : h.allocations = m.heap.allocations) (hboxed : h.boxed = m.heap.boxed) :
    Steady m { m with heap := h } := by
  intro hm
  refine ⟨⟨hc.sound hm.sound, hm.bound.of_le rfl (List.suffix_refl _) hinterval ?_⟩, List.suffix_refl _⟩
  rw [hallocations, hboxed]

/-- A new box counts on both sides: as an allocation, and as a box that is there. -/
theorem steady_ofInt (m : Machine) (n : Int) : Steady m (m.ofInt n).2 := by
  cases hfits : Value.fitsInline n with
  | true =>
      rw [ofInt, m.heap.ofInt_inline hfits]
      exact .refl m
  | false =>
      rw [ofInt, m.heap.ofInt_newBoxed hfits]
      intro hm
      refine ⟨⟨Heap.Change.sound (.newBoxed n) hm.sound, hm.bound.of_le rfl (List.suffix_refl _) rfl ?_⟩,
        List.suffix_refl _⟩
      have hlive : (m.heap.newBoxed n).2.boxed.live = m.heap.boxed.live + 1 :=
        Arena.live_insert hm.sound.boxed
      change m.heap.allocations + 1 + 0 + m.heap.boxed.live ≤
        m.heap.allocations + 0 + (m.heap.newBoxed n).2.boxed.live
      omega

theorem steady_setEntry (m : Machine) (slot : Nat) (key : Key) (v : Value) :
    Steady m (m.setEntry slot key v) :=
  steady_change (.entry slot key v) rfl rfl rfl

theorem Edit.steady (h : Edit m m') : Steady m m' := by
  cases h with
  | integer n => exact (steady_ofInt m n).trans (steady_of_eq rfl rfl (List.suffix_refl _))
  | allocate owner bytes => exact steady_change (.allocate owner bytes) rfl rfl rfl
  | write a bytes => exact steady_change (.write a bytes) rfl rfl rfl
  | setTop n =>
      obtain ⟨stack, hstack⟩ := setTop_eq m n
      rw [hstack]
      exact steady_of_eq rfl rfl (List.suffix_refl _)
  | constructed slot =>
      refine steady_of_eq heap_note ?_ (suffix_note _ slot m)
      rw [note_eq]
  | push | put | pop | intern | remember | token | host => exact steady_of_eq rfl rfl (List.suffix_refl _)

theorem Edits.steady (h : Edits m m') : Steady m m' := by
  induction h with
  | refl => exact .refl m
  | tail _ hstep ih => exact ih.trans hstep.steady

end Machine

open Machine (Steady steady_of_eq)

variable {ε ε' α β : Type}

/-- Whatever an operation comes to, it is steady. -/
def Op.Steady (x : Op ε α) : Prop := ∀ m, Machine.Steady m (x.after m)

/-- The functions of a host are steady, and those of another host do the same on frugal machines. -/
structure Host.Steady (host host' : Host) : Prop where
  same : ∀ b m, m.Frugal → host'.enter b m = host.enter b m
  steady : ∀ b, (host.enter b).Steady

/-- An operation that may call functions is steady for a host whose functions are, and runs alike for
    another host whose functions do the same on frugal machines. -/
def Act.Steady (x : Act ε α) : Prop :=
  ∀ host host' : Host, host.Steady host' → (∀ m, m.Frugal → x host' m = x host m) ∧ Op.Steady (x host)

namespace Op.Steady

variable {x : Op ε α} {f : α → Op ε β}

theorem ok {m m' : Machine} {a : α} (h : x.Steady) (hrun : x m = .ok a m') : Machine.Steady m m' :=
  Op.after_ok hrun ▸ h m

theorem error {m m' : Machine} {e : ε} (h : x.Steady) (hrun : x m = .error e m') : Machine.Steady m m' :=
  Op.after_error hrun ▸ h m

/-- Values are moved on the stack. -/
theorem stack {g : Machine → Machine} (hg : ∀ m, ∃ stack, g m = { m with stack }) :
    Op.Steady (modify g : Op ε PUnit) := by
  intro m
  obtain ⟨s, hs⟩ := hg m
  change Machine.Steady m (g m)
  rw [hs]
  exact steady_of_eq rfl rfl (List.suffix_refl _)

theorem pure (a : α) : Op.Steady (pure a : Op ε α) := fun m => .refl m

theorem get : Op.Steady (get : Op ε Machine) := fun m => .refl m

theorem fail (f : Fault) : Op.Steady (ScriptHost.fail f : Op ScriptError α) := fun m => .refl m

theorem modify {g : Machine → Machine} (hg : ∀ m, Machine.Steady m (g m)) :
    Op.Steady (modify g : Op ε PUnit) := hg

theorem modifyGet {g : Machine → α × Machine} (hg : ∀ m, Machine.Steady m (g m).2) :
    Op.Steady (modifyGet g : Op ε α) := hg

theorem bind (hx : x.Steady) (hf : ∀ a, (f a).Steady) : (x >>= f).Steady := by
  intro m
  cases hrun : x m with
  | ok a m' =>
      have heq : (x >>= f).after m = (f a).after m' := by simp only [Op.after, bind_ok hrun]
      rw [heq]
      exact (hx.ok hrun).trans (hf a m')
  | error e m' =>
      rw [Op.after_error (bind_error hrun)]
      exact hx.error hrun

end Op.Steady

namespace Op

variable {i : StackIndex}

/-! ## Stack and tables -/

theorem pop_steady (n : Nat) : Op.Steady (modify (·.pop n) : Op ε PUnit) :=
  .modify fun _ => (Machine.Edit.pop n).steady

theorem push_steady (v : Value) : Op.Steady (modify (·.push v) : Op ε PUnit) :=
  .modify fun _ => steady_of_eq rfl rfl (List.suffix_refl _)

theorem setEntry_steady (slot : Nat) (key : Key) (v : Machine → Value) :
    Op.Steady (modify (fun m => m.setEntry slot key (v m)) : Op ε PUnit) :=
  .modify fun m => m.steady_setEntry slot key (v m)

theorem intern_steady (bytes : Bytes) : Op.Steady (modifyGet (·.intern bytes) : Op ε StringId) :=
  .modifyGet fun _ => (Machine.Edit.intern bytes).steady

theorem position_steady (i : StackIndex) : (position i).Steady :=
  .bind .get fun _ => by
    split
    · exact .pure _
    · exact .fail _

theorem tableAt_steady (i : StackIndex) : (tableAt i).Steady :=
  .bind .get fun _ => by
    split
    · exact .pure _
    · exact .fail _

theorem store_steady (i : StackIndex) (v : Value) : (store i v).Steady := by
  have hslot : ∀ i, (do let p ← position i; modify (·.putAt p v) : Op ScriptError PUnit).Steady := fun i =>
    .bind (position_steady i) fun _ => .stack fun _ => ⟨_, rfl⟩
  unfold store
  cases i with
  | fromBottom n | fromTop n => exact hslot _
  | registry => exact .fail _
  | environment =>
      dsimp only
      split
      · exact .modify fun _ => steady_of_eq rfl rfl (List.suffix_refl _)
      · exact .fail _
  | upvalue n =>
      refine .bind .get fun m => ?_
      split
      · exact .fail _
      · dsimp only
        split
        · exact .fail _
        · exact .modify fun _ => Machine.steady_change (.upvalue _ _ v) rfl rfl rfl

theorem rawStore_steady (slot : Nat) (key v : Value) : (rawStore slot key v).Steady :=
  .bind .get fun _ => by
    split
    · exact .fail _
    · exact setEntry_steady slot _ fun _ => v
    · exact .fail _

theorem next_steady (i : StackIndex) : (next i).Steady := by
  refine .bind .get fun _ => .bind (tableAt_steady _) fun _ => .bind .get fun _ =>
    .bind (pop_steady 1) fun _ => .bind .get fun _ => ?_
  dsimp only
  split
  · refine .bind (.modifyGet fun m => ?_) fun _ => .bind (push_steady _) fun _ =>
      .bind (push_steady _) fun _ => .pure _
    unfold Machine.keyValue
    split
    · exact .refl m
    · exact m.steady_ofInt _
  · exact .pure _
  · exact .fail _

theorem setMetatable_steady (i : StackIndex) : (setMetatable i).Steady := by
  have hset : ∀ {x : Op ScriptError PUnit}, x.Steady →
      (do x; modify (·.pop 1) : Op ScriptError Unit).Steady := fun hx => .bind hx fun _ => pop_steady 1
  have htable : ∀ (slot : Nat) (metatable : Option Nat), Op.Steady (modify fun m =>
      { m with heap := m.heap.modifyTable slot fun t => { t with metatable } } : Op ScriptError PUnit) :=
    fun slot metatable => .modify fun _ => Machine.steady_change (.tableMeta slot metatable) rfl rfl rfl
  have huserdata : ∀ (slot : Nat) (metatable : Option Nat), Op.Steady (modify fun m =>
      { m with heap := m.heap.modifyUserdata slot fun u => { u with metatable } } : Op ScriptError PUnit) :=
    fun slot metatable => .modify fun _ => Machine.steady_change (.userMeta slot metatable) rfl rfl rfl
  refine .bind .get fun m => ?_
  dsimp only
  split
  · refine .bind (.pure _) fun metatable => ?_
    split
    exacts [hset (htable _ _), hset (huserdata _ _), hset (.fail _)]
  · refine .bind (.pure _) fun metatable => ?_
    split
    exacts [hset (htable _ _), hset (huserdata _ _), hset (.fail _)]
  · exact .bind (.fail _) fun metatable => by
      split
      exacts [hset (htable _ _), hset (huserdata _ _), hset (.fail _)]

theorem Raw.steady {x : Op ScriptError α} (h : x.Raw) : x.Steady := by
  cases h with
  | insert i =>
      refine .bind (position_steady i) fun p => .stack fun m => ?_
      unfold Machine.sinkTop
      split <;> exact ⟨_, rfl⟩
  | remove i => exact .bind (position_steady i) fun _ => .stack fun _ => ⟨_, rfl⟩
  | replace i => exact .bind .get fun _ => .bind (store_steady _ _) fun _ => pop_steady 1
  | rawGet i =>
      exact .bind .get fun _ => .bind (tableAt_steady _) fun _ => .bind .get fun _ =>
        .bind (pop_steady 1) fun _ => .bind (push_steady _) fun _ => .pure _
  | rawSet i =>
      exact .bind .get fun _ => .bind (tableAt_steady _) fun _ => .bind .get fun _ =>
        .bind (rawStore_steady _ _ _) fun _ => pop_steady 2
  | rawGetInt i n =>
      exact .bind (tableAt_steady _) fun _ => .bind .get fun _ => .bind (push_steady _) fun _ => .pure _
  | rawSetInt i n =>
      exact .bind .get fun _ => .bind (tableAt_steady _) fun _ =>
        .bind (setEntry_steady _ _ fun m => m.topValue) fun _ => pop_steady 1
  | rawGetField i name =>
      exact .bind (tableAt_steady _) fun _ => .bind (intern_steady _) fun _ => .bind .get fun _ =>
        .bind (push_steady _) fun _ => .pure _
  | rawSetField i name =>
      exact .bind .get fun _ => .bind (tableAt_steady _) fun _ => .bind (intern_steady _) fun _ =>
        .bind (setEntry_steady _ _ fun m => m.topValue) fun _ => pop_steady 1
  | next i => exact next_steady i
  | setMetatable i => exact setMetatable_steady i
  | setUserValue i =>
      refine .bind .get fun _ => ?_
      split
      · exact .bind (.modify fun _ => Machine.steady_change (.userValue _ _) rfl rfl rfl) fun _ => pop_steady 1
      · exact .fail _

theorem Tidies.steady [Raises ε] {x : Op ε Unit} (h : x.Tidies) : x.Steady := by
  intro m
  rcases h m with ⟨s, -, hrun⟩ | ⟨e, -, hrun⟩
  · rw [Op.after_ok hrun]
    exact steady_of_eq rfl rfl (List.suffix_refl _)
  · rw [Op.after_error hrun]
    exact .refl m

end Op

namespace Act.Steady

variable {x : Act ε α} {f : α → Act ε β}

theorem lift {x : Op ε α} (h : x.Steady) : Act.Steady (liftM x : Act ε α) := fun _ _ _ => ⟨fun _ _ => rfl, h⟩

theorem pure (a : α) : Act.Steady (pure a : Act ε α) := .lift (.pure a)

theorem throw (e : ε) : Act.Steady (throw e : Act ε α) := fun _ _ _ => ⟨fun _ _ => rfl, fun m => .refl m⟩

theorem get : Act.Steady (get : Act ε Machine) := fun _ _ _ => ⟨fun _ _ => rfl, fun m => .refl m⟩

theorem modify {g : Machine → Machine} (hg : ∀ m, Machine.Steady m (g m)) :
    Act.Steady (modify g : Act ε PUnit) := fun _ _ _ => ⟨fun _ _ => rfl, hg⟩

theorem modifyGet {g : Machine → α × Machine} (hg : ∀ m, Machine.Steady m (g m).2) :
    Act.Steady (modifyGet g : Act ε α) := fun _ _ _ => ⟨fun _ _ => rfl, hg⟩

theorem bind (hx : x.Steady) (hf : ∀ a, (f a).Steady) : (x >>= f).Steady := by
  intro host host' hhost
  obtain ⟨hsame, hsteady⟩ := hx host host' hhost
  refine ⟨fun m hm => ?_, Op.Steady.bind hsteady fun a => (hf a host host' hhost).2⟩
  rw [run_bind, run_bind, hsame m hm]
  cases hrun : x host m with
  | ok a m' => exact (hf a host host' hhost).1 m' (hsteady.ok hrun hm).1
  | error e m' => rfl

theorem attempt (h : x.Steady) : Act.Steady (attempt x : Act ε' (Except ε α)) := by
  intro host host' hhost
  obtain ⟨hsame, hsteady⟩ := h host host' hhost
  refine ⟨fun m hm => by rw [run_attempt, run_attempt, hsame m hm], fun m => ?_⟩
  rw [after_attempt]
  exact hsteady m

theorem mapError {g : ε → ε'} (h : x.Steady) : Act.Steady (mapError g x) := by
  intro host host' hhost
  obtain ⟨hsame, hsteady⟩ := h host host' hhost
  refine ⟨fun m hm => by rw [run_mapError, run_mapError, hsame m hm], fun m => ?_⟩
  rw [after_mapError]
  exact hsteady m

/-- A function of the host is entered on a frugal machine. -/
theorem enter_bind {b : Behaviour} {k : Except ScriptError Nat → Act ε β} (hk : ∀ r, (k r).Steady) :
    Act.Steady (do
      let host ← read
      k (← Act.attempt (liftM (host.enter b)))) := by
  intro host host' hhost
  refine ⟨fun m hm => ?_, fun m => ?_⟩
  · simp only [run_bind, run_read, run_attempt, run_lift, hhost.same b m hm]
    cases hrun : host.enter b m with
    | ok count m' => exact (hk _ host host' hhost).1 m' ((hhost.steady b).ok hrun hm).1
    | error e m' => exact (hk _ host host' hhost).1 m' ((hhost.steady b).error hrun hm).1
  · unfold Op.after
    simp only [run_bind, run_read, run_attempt, run_lift]
    cases hrun : host.enter b m with
    | ok count m' => exact ((hhost.steady b).ok hrun).trans ((hk _ host host' hhost).2 m')
    | error e m' => exact ((hhost.steady b).error hrun).trans ((hk _ host host' hhost).2 m')

end Act.Steady

end ScriptHost
