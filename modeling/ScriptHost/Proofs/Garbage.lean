import ScriptHost.Proofs.Construction
import ScriptHost.Proofs.Freshness
import ScriptHost.Proofs.Frugal

/-! # Garbage

Whatever native code does, at any depth of calls, as long as no finalizer is due no more objects are made
between two cycles than the interval allows, but for boxed integers: these are made without a look at the
interval, so that they alone can pile up. In a new machine there are two tables already, registry and
globals.
-/

namespace ScriptHost

open Machine (steady_of_eq)

namespace Machine

variable {m m' : Machine}

theorem steady_returnResults (m : Machine) (position : Nat) (wanted : Int) (count : Nat) :
    Steady m (m.returnResults position wanted count) :=
  steady_of_eq heap_returnResults closed_returnResults (events_returnResults ▸ List.suffix_refl _)

theorem steady_beginHandling (m : Machine) (handler raised : Value) :
    Steady m (m.beginHandling handler raised) := by
  rw [beginHandling_eq]
  exact steady_of_eq rfl rfl (List.suffix_cons _ _)

theorem steady_endHandling (m : Machine) (position : Nat) (raised : Value) (answer : Option Value) :
    Steady m (m.endHandling position raised answer) := by
  obtain ⟨outcome, strings, houtcome⟩ := m.handlerOutcome_eq answer
  rw [endHandling_eq, houtcome]
  exact steady_of_eq rfl rfl (List.suffix_cons _ _)

theorem steady_failProtected (m : Machine) (depth position : Nat) (e : ScriptError) :
    Steady m (m.failProtected depth position e).2 := steady_of_eq rfl rfl (List.suffix_refl _)

theorem steady_cycle (m : Machine) : Steady m m.cycle.2.2 := by
  intro hm
  exact ⟨⟨cycle_sound hm.sound, .inr (.inr fun n _ => Nat.zero_le _)⟩, suffix_cycle m⟩

theorem steady_shut (m : Machine) : Steady m m.shut.2 := by
  intro hm
  have hsound : m.shut.2.heap.Sound := by
    rw [shut_heap]
    exact hm.sound.of_eq hm.sound.tables hm.sound.functions hm.sound.boxed rfl rfl rfl rfl
  exact ⟨⟨hsound, .inl rfl⟩, suffix_shut m⟩

theorem steady_beginTurn (m : Machine) (slot : Nat) : Steady m (m.beginTurn slot) := by
  intro hm
  exact ⟨⟨Heap.sound_setFinalized hm.sound, hm.bound.of_le rfl (List.suffix_cons _ _) rfl (Nat.le_refl _)⟩,
    List.suffix_cons _ _⟩

end Machine

namespace Act

variable {ε ε' α : Type} {position : Nat} {wanted : Int}

/-! ## Calls -/

theorem callee_steady (position : Nat) : (callee position).Steady := by
  refine .bind .get fun m => ?_
  dsimp only
  split
  · exact .pure _
  · split
    · exact .bind (.modify fun _ => steady_of_eq rfl rfl (List.suffix_refl _)) fun _ => .pure _
    · exact .fail _

theorem invoke_steady {failed : ScriptError → Act ScriptError Unit} (hfailed : ∀ e, (failed e).Steady) :
    (invoke failed position wanted).Steady := by
  refine .bind .get fun m => ?_
  dsimp only
  split
  · exact (Steady.throw _ : Act.Steady (throw ScriptError.stackOverflow : Act ScriptError Unit))
  · refine .bind (.lift (callee_steady position)) fun slot => .bind .get fun m => ?_
    split
    · exact .lift (.fail _)
    · refine .bind (.modify fun _ => steady_of_eq rfl rfl (List.suffix_refl _)) fun _ =>
        .enter_bind fun result => ?_
      cases result with
      | ok count => exact .modify fun m => m.steady_returnResults _ _ _
      | error e =>
          exact .bind (hfailed e) fun _ =>
            .bind (.modify fun _ => steady_of_eq rfl rfl (List.suffix_refl _)) fun _ => .throw e

theorem callHandler_steady (position : Nat) : (callHandler position).Steady :=
  invoke_steady fun _ => .modify fun _ => steady_of_eq rfl rfl (List.suffix_refl _)

theorem runHandler_steady (handler raised : Value) : (runHandler handler raised : Act ε Unit).Steady := by
  refine .bind .get fun m => .bind (.modify fun m => m.steady_beginHandling _ _) fun _ =>
    .bind (.attempt (callHandler_steady _)) fun result => ?_
  have hend : ∀ (position : Nat) (answer : Option Value),
      Act.Steady (modify (·.endHandling position raised answer) : Act ε PUnit) :=
    fun position answer => .modify fun m => m.steady_endHandling position raised answer
  cases result with
  | ok _ => exact .bind .get fun _ => .bind (.pure _) fun _ => hend _ _
  | error _ => exact .bind (.pure _) fun _ => hend _ _

theorem showHandler_steady (e : ScriptError) : (showHandler e : Act ε Unit).Steady := by
  refine .bind (.modifyGet fun _ => steady_of_eq rfl rfl (List.suffix_refl _)) fun raised =>
    .bind .get fun m => ?_
  split
  · exact .pure _
  · rename_i g rest hguards
    have hrun : ∀ (handler : Value) (known : Bool), Act.Steady
        (if g.running || known then pure () else runHandler handler raised : Act ε Unit) := by
      intro handler known
      split
      · exact .pure _
      · exact runHandler_steady _ _
    dsimp only
    cases g.handler with
    | none => exact .pure _
    | some handler => cases g.decoration <;> exact hrun _ _

theorem callAt_steady (position : Nat) (wanted : Int) : (callAt position wanted).Steady :=
  invoke_steady showHandler_steady

theorem functionBelow_steady (count : Nat) : (functionBelow count).Steady :=
  .bind .get fun _ => by
    split
    · exact .pure _
    · exact .fail _

theorem call_steady (count : Nat) (wanted : Int) : (call count wanted).Steady :=
  .bind (.lift (functionBelow_steady count)) fun _ => callAt_steady _ _

theorem protectedCall_steady (count : Nat) (wanted : Int) (handler : Option StackIndex) :
    (protectedCall count wanted handler).Steady := by
  refine .bind (.lift (functionBelow_steady count)) fun position => .bind .get fun m =>
    .bind (.modify fun _ => steady_of_eq rfl rfl (List.suffix_refl _)) fun _ =>
    .bind (.attempt (callAt_steady position wanted)) fun result => ?_
  cases result with
  | ok _ => exact .modify fun _ => steady_of_eq rfl rfl (List.suffix_refl _)
  | error e =>
      exact .bind (showHandler_steady e) fun _ =>
        .bind (.modifyGet fun m => m.steady_failProtected _ _ _) fun _ => .throw _

/-! ## Indexing -/

theorem callOnTop_steady {g : Machine → Machine} (hg : ∀ m, ∃ stack, g m = { m with stack })
    {k : Unit → Act ScriptError α} (position : Nat) (wanted : Int) (hk : ∀ u, (k u).Steady) :
    Act.Steady (modify g >>= fun _ => callAt position wanted >>= k) := by
  refine .bind (.modify fun m => ?_) fun _ => .bind (callAt_steady _ _) hk
  obtain ⟨stack, hstack⟩ := hg m
  rw [hstack]
  exact steady_of_eq rfl rfl (List.suffix_refl _)

theorem truncate_steady (position : Nat) : Act.Steady (modify (·.truncate position) : Act ε PUnit) :=
  .modify fun _ => steady_of_eq rfl rfl (List.suffix_refl _)

theorem readChain_steady (v key : Value) (fuel : Nat) : (readChain v key fuel).Steady := by
  induction fuel generalizing v with
  | zero => exact .lift (.fail _)
  | succ fuel ih =>
      refine .bind .get fun m => ?_
      split
      · exact .lift (.fail _)
      · exact .pure _
      · exact ih _
      · exact callOnTop_steady (fun _ => ⟨_, rfl⟩) _ _ fun _ => .bind .get fun _ =>
          .bind (truncate_steady _) fun _ => .pure _

theorem writeChain_steady (v key new : Value) (fuel : Nat) : (writeChain v key new fuel).Steady := by
  induction fuel generalizing v with
  | zero => exact .lift (.fail _)
  | succ fuel ih =>
      refine .bind .get fun m => ?_
      split
      · exact .lift (.fail _)
      · exact .lift (Op.rawStore_steady _ _ _)
      · exact ih _
      · exact callOnTop_steady (fun _ => ⟨_, rfl⟩) _ _ fun _ => truncate_steady _

theorem getTable_steady (i : StackIndex) : (getTable i).Steady :=
  .bind .get fun _ => .bind (readChain_steady _ _ _) fun _ =>
    .bind (.modify fun _ => steady_of_eq rfl rfl (List.suffix_refl _)) fun _ => .pure _

theorem setTable_steady (i : StackIndex) : (setTable i).Steady :=
  .bind .get fun _ => .bind (writeChain_steady _ _ _ _) fun _ => .lift (Op.pop_steady 2)

theorem cacheGet_steady (key : CacheKey NativeCode) : (cacheGet key : Act ε Bool).Steady := by
  refine .bind .get fun m => ?_
  split
  · exact .bind (.lift (Op.push_steady _)) fun _ => .pure _
  · exact .pure _

/-! ## Collection -/

theorem finalize_steady (slot : Nat) : (finalize slot : Act ε Unit).Steady := by
  have hend : ∀ position depth : Nat, Act.Steady (do
      let _ ← attempt (callAt position 0)
      modify fun m => (m.popGuard.truncateFrames depth).truncate position : Act ε PUnit) := fun _ _ =>
    .bind (.attempt (callAt_steady _ _)) fun _ => .modify fun _ => steady_of_eq rfl rfl (List.suffix_refl _)
  refine .bind (.modify fun m => m.steady_beginTurn slot) fun _ => .bind .get fun m => ?_
  split
  · dsimp only
    refine .bind (.modify fun _ => steady_of_eq rfl rfl (List.suffix_refl _)) fun _ =>
      .bind (.modify fun _ => steady_of_eq rfl rfl (List.suffix_refl _)) fun _ => .bind .get fun m' => ?_
    split
    · refine .bind (.modify fun m => steady_of_eq Machine.heap_note ?_ (Machine.suffix_note _ slot m))
        fun _ => hend _ _
      rw [Machine.note_eq]
    · exact hend _ _
  · exact .pure _

theorem finalizeAll_steady (queue : List Nat) : (finalizeAll queue : Act ε Unit).Steady := by
  unfold finalizeAll
  induction queue.reverse with
  | nil => exact .pure _
  | cons slot rest ih => exact .bind (finalize_steady slot) fun _ => ih

theorem collect_steady : (collect : Act ε Nat).Steady := by
  refine .bind .get fun _ => ?_
  split
  · exact .pure _
  · exact .bind (.modifyGet Machine.steady_cycle) fun (queue, _) => .bind (finalizeAll_steady queue) fun _ =>
      .pure _

theorem collectIfDue_steady : (collectIfDue : Act ε Unit).Steady := by
  refine .bind .get fun _ => ?_
  split
  · exact .bind collect_steady fun _ => .pure _
  · exact .pure _

theorem close_steady : (close : Act ε Unit).Steady := by
  refine .bind .get fun _ => ?_
  split
  · exact .bind (.modifyGet Machine.steady_shut) fun queue => .bind (finalizeAll_steady queue) fun _ =>
      .modify fun _ => steady_of_eq rfl rfl (List.suffix_refl _)
  · exact .pure _

/-! ## Allocation -/

variable {host host' : Host} {m m' : Machine}

/-- A cycle that finds a userdata due puts that into the log. -/
theorem finalizes_cycle (hqueue : m.cycle.1 ≠ []) : m.cycle.2.2.Finalizes := by
  obtain ⟨slot, rest, hcons⟩ := List.exists_cons_of_ne_nil hqueue
  have hslot : slot ∈ m.cycle.1 := by
    rw [hcons]
    exact List.mem_cons_self
  obtain ⟨u, hu, -⟩ := Machine.mem_cycle_queue.mp hslot
  refine ⟨slot, u.serial, ?_⟩
  rw [Machine.cycle_events]
  refine List.mem_append_left _ (List.mem_reverse.mpr (List.mem_filterMap.mpr ⟨slot, hslot, ?_⟩))
  simp only [Machine.queuedEvent?, hu, Option.map_some]

/-- After a cycle there is room for an object, unless finalizers ran. -/
theorem allows_of_collect (hhost : host.Steady host') (hm : m.Frugal) {freed : Nat}
    (hrun : (collect : Act ε Nat) host m = .ok freed m') : m'.Allows 1 := by
  cases hclosed : m.closed with
  | true =>
      rw [collect_closed hclosed] at hrun
      cases hrun
      exact .inl hclosed
  | false =>
      obtain ⟨last, hturns, hcollect⟩ := collect_open (ε := ε) host hclosed
      rw [hcollect] at hrun
      cases hrun
      by_cases hqueue : m.cycle.1 = []
      · -- without turns the allocations are counted from the cycle on
        rw [hqueue] at hturns
        cases hturns
        refine .inr (.inr fun n _ => ?_)
        change 0 + 1 ≤ max n 2 + _
        omega
      · have hcycle := (m.steady_cycle hm).1
        have hsteady := (finalizeAll_steady (ε := ε) m.cycle.1 host host' hhost).2
        exact .inr (.inl ((finalizes_cycle hqueue).of_suffix (hsteady.ok hturns hcycle).2))

/-- After a look at the interval there is room for one more object. -/
theorem allows_of_collectIfDue (hhost : host.Steady host') (hm : m.Frugal)
    (hrun : (collectIfDue : Act ε Unit) host m = .ok () m') : m'.Allows 1 := by
  obtain ⟨freed, last, hcollect⟩ := collect_total (ε := ε) host m
  rw [collectIfDue, run_bind, run_get] at hrun
  dsimp only at hrun
  cases hdue : m.heap.isDue with
  | true =>
      rw [hdue, if_pos rfl, run_bind, hcollect] at hrun
      cases hrun
      exact allows_of_collect hhost hm hcollect
  | false =>
      rw [hdue, if_neg Bool.false_ne_true] at hrun
      cases hrun
      refine .inr (.inr fun n hn => ?_)
      rw [Heap.isDue, hn] at hdue
      have hlt : ¬ n ≤ m.heap.allocations := of_decide_eq_false hdue
      omega

/-- What makes one object after a look at the interval. -/
theorem allocation_steady {g : Machine → α × Machine}
    (hg : ∀ m, m.heap.Sound → (g m).2.heap.Sound) (hclosed : ∀ m, (g m).2.closed = m.closed)
    (hlog : ∀ m, (g m).2.events = m.events) (hinterval : ∀ m, (g m).2.heap.interval = m.heap.interval)
    (hallocations : ∀ m, (g m).2.heap.allocations = m.heap.allocations + 1)
    (hboxed : ∀ m, (g m).2.heap.boxed = m.heap.boxed) :
    Act.Steady (collectIfDue >>= fun _ => modifyGet g : Act ε α) := by
  intro host host' hhost
  obtain ⟨hsame, hsteady⟩ := collectIfDue_steady (ε := ε) host host' hhost
  refine ⟨fun m hm => ?_, fun m hm => ?_⟩
  · rw [run_bind, run_bind, hsame m hm]
    rfl
  · obtain ⟨m₁, hrun, -⟩ := collectIfDue_cases (ε := ε) host m
    obtain ⟨hm₁, hgrown⟩ := hsteady.ok hrun hm
    have hallows := allows_of_collectIfDue hhost hm hrun
    have hdone : (collectIfDue >>= fun _ => modifyGet g : Act ε α) host m = .ok (g m₁).1 (g m₁).2 :=
      bind_ok hrun
    rw [Op.after_ok hdone]
    have hsuffix : m₁.events <:+ (g m₁).2.events := hlog m₁ ▸ List.suffix_refl _
    refine ⟨⟨hg m₁ hm₁.sound, hallows.of_le (hclosed m₁) hsuffix (hinterval m₁) ?_⟩, hgrown.trans hsuffix⟩
    rw [hallocations, hboxed]

theorem pushFunction_steady (behaviour : Behaviour) (upvalues : Nat) (origin : Origin) :
    (pushFunction behaviour upvalues origin : Act ε Unit).Steady :=
  allocation_steady (fun _ hm => Heap.Change.sound (.newFunction _) hm) (fun _ => rfl) (fun _ => rfl)
    (fun _ => rfl) (fun _ => rfl) fun _ => rfl

theorem newTable_steady : (newTable : Act ε Unit).Steady :=
  allocation_steady (fun _ hm => Heap.Change.sound .newTable hm) (fun _ => rfl) (fun _ => rfl)
    (fun _ => rfl) (fun _ => rfl) fun _ => rfl

theorem newUserdata_steady (size : Nat) : (newUserdata size : Act ε Address).Steady :=
  allocation_steady (fun _ hm => Heap.Change.sound (.newUserdata size) hm) (fun _ => rfl) (fun _ => rfl)
    (fun _ => rfl) (fun _ => rfl) fun _ => rfl

theorem Composed.steady [Raises ε] {x : Act ε α} (h : x.Composed) : x.Steady := by
  induction h with
  | pure a => exact .pure a
  | bind _ _ ihx ihf => exact .bind ihx ihf
  | get => exact .get
  | edit hg => exact .modifyGet fun m => (hg m).steady
  | raw hx => exact .lift hx.steady
  | raise hg => exact .bind (.modifyGet fun m => (hg m).1.steady) fun e => .throw e
  | attempt _ ih => exact .attempt ih
  | recover _ _ hk ih ihk =>
      refine .bind (.attempt ih) fun result => ?_
      cases result with
      | ok a => exact ihk a
      | error e =>
          obtain ⟨tidy, htidy, heq⟩ := hk e
          rw [heq]
          exact .bind (.lift htidy.steady) fun _ => .throw e
  | mapError _ _ ih => exact .mapError ih
  | call count wanted => exact call_steady count wanted
  | protectedCall count wanted handler => exact protectedCall_steady count wanted handler
  | getTable i => exact getTable_steady i
  | setTable i => exact setTable_steady i
  | cacheGet key => exact cacheGet_steady key
  | pushFunction => exact pushFunction_steady _ _ _
  | newTable => exact newTable_steady
  | newUserdata size => exact newUserdata_steady size
  | collect => exact collect_steady
  | close => exact close_steady

end Act

namespace Host

variable {bodies : Behaviour → Act ScriptError Nat}

theorem running_steady (hbodies : ∀ b, (bodies b).Composed) (depth : Nat) (b : Behaviour) :
    ((running bodies depth).enter b).Steady := by
  induction depth generalizing b with
  | zero => exact fun m => .refl m
  | succ depth ih => exact ((hbodies b).steady (running bodies depth) _ ⟨fun _ _ _ => rfl, ih⟩).2

end Host

namespace Machine

variable {bodies : Behaviour → Act ScriptError Nat} {depth n : Nat} {limits : Limits} {m m' : Machine}

/-- Some userdata has a metatable with a `__gc` entry. -/
def HasFinalizer (m : Machine) : Prop :=
  ∃ slot u, m.heap.userdata? slot = some u ∧ m.heap.hasMetaEntry u Metafield.finalizer.id = true

/-- A userdata is found due only in a machine in which it carries a `__gc` entry. -/
theorem Move.finalizes (h : Move m m') (hm' : m'.Finalizes) : m.Finalizes ∨ m.HasFinalizer := by
  obtain ⟨slot, serial, hin⟩ := hm'
  have hqueued : ∀ {queue : List Nat} {e : Event} {old : List Event},
      Event.queued slot serial ∈ (queue.filterMap (queuedEvent? m.heap)).reverse ++ e :: old →
      (∃ s ∈ queue, queuedEvent? m.heap s = some (.queued slot serial)) ∨
        .queued slot serial = e ∨ .queued slot serial ∈ old := by
    intro queue e old hmem
    simpa only [List.mem_append, List.mem_reverse, List.mem_filterMap, List.mem_cons] using hmem
  cases h with
  | change h =>
      obtain ⟨later, hlater, hconstructed⟩ := h.log
      rcases List.mem_append.mp (hlater ▸ hin) with hin | hin
      · obtain ⟨_, he⟩ := hconstructed _ hin
        cases he
      · exact .inl ⟨slot, serial, hin⟩
  | service h =>
      cases h with
      | forgotten =>
          rw [forgetDecoration_eq] at hin
          exact .inl ⟨slot, serial, hin⟩
      | begun handler raised hheeds =>
          rw [beginHandling_eq] at hin
          exact .inl ⟨slot, serial, (List.mem_cons.mp hin).resolve_left Event.noConfusion⟩
      | ended position raised answer hbase =>
          rw [endHandling_events] at hin
          exact .inl ⟨slot, serial, (List.mem_cons.mp hin).resolve_left Event.noConfusion⟩
  | enter | leave | protect | unprotect => exact .inl ⟨slot, serial, hin⟩
  | cycle =>
      rw [cycle_events] at hin
      obtain ⟨s, hs, -⟩ | he | hin := hqueued hin
      · obtain ⟨u, hu, -, -, hentry⟩ := mem_cycle_queue.mp hs
        exact .inr ⟨s, u, hu, hentry⟩
      · cases he
      · exact .inl ⟨slot, serial, hin⟩
  | shut =>
      rw [shut_events] at hin
      obtain ⟨s, hs, -⟩ | he | hin := hqueued hin
      · obtain ⟨u, hu, -, -, hentry⟩ := Heap.mem_finalizable.mp hs
        exact .inr ⟨s, u, hu, hentry⟩
      · cases he
      · exact .inl ⟨slot, serial, hin⟩
  | turn s =>
      rcases turned_events m s with heq | ⟨u, -, heq⟩ <;> rw [heq] at hin
      · exact .inl ⟨slot, serial, (List.mem_cons.mp hin).resolve_left Event.noConfusion⟩
      · have hold := (List.mem_cons.mp hin).resolve_left Event.noConfusion
        exact .inl ⟨slot, serial, (List.mem_cons.mp hold).resolve_left Event.noConfusion⟩

/-- As long as no userdata carries a `__gc` entry, none is found due. -/
theorem not_finalizes_of_moves
    (h : Relation.ReflTransGen (fun m m' => Move m m' ∧ ¬ m.HasFinalizer) (create limits) m) :
    ¬ m.Finalizes := by
  induction h with
  | refl => exact fun ⟨_, _, hin⟩ => List.not_mem_nil hin
  | tail _ hstep ih => exact fun hm' => (hstep.1.finalizes hm').elim ih hstep.2

theorem frugal_create (limits : Limits) : (create limits).Frugal := by
  refine ⟨(reachable_create limits).heap_sound, .inr (.inr fun n _ => ?_)⟩
  change 2 + 0 ≤ max n 2 + _
  omega

/-- All machines that native code comes to see are frugal. -/
theorem Arises.frugal (hm : m.Arises bodies depth) (hbodies : ∀ b, (bodies b).Composed) : m.Frugal := by
  induction hm with
  | create limits => exact frugal_create limits
  | @run depth m ε α _ x hx _ ih =>
      have hhost : (Host.running bodies depth).Steady (Host.running bodies depth) :=
        ⟨fun _ _ _ => rfl, Host.running_steady hbodies depth⟩
      exact ((hx.steady _ _ hhost).2 m ih).1
  | @enter depth m b entered ε α _ x hx _ hcalls ih =>
      -- A function that is entered on another machine would make no difference.
      by_contra hwasteful
      obtain ⟨host', hsame, hdiffers⟩ := hcalls
      refine hdiffers ((hx.steady _ host' ⟨fun b' m' hm' => hsame b' m' (.inr ?_),
        Host.running_steady hbodies _⟩).1 m ih)
      rintro rfl
      exact hwasteful hm'

/-- As long as no cycle finds a userdata that needs its finalizer, an open machine has made no more objects
    since the last cycle than its interval allows, after every operation of whatever code; boxed integers
    come on top. -/
theorem Arises.garbage_bounded (hm : m.Arises bodies depth) (hbodies : ∀ b, (bodies b).Composed)
    (hinterval : m.heap.interval = some n) (hopen : m.closed = false) (hnone : ¬ m.Finalizes) :
    m.heap.allocations ≤ max n 2 + m.heap.boxed.live := by
  rcases (hm.frugal hbodies).bound with hclosed | hfinalizes | hbound
  · rw [hopen] at hclosed
    cases hclosed
  · exact absurd hfinalizes hnone
  · exact hbound n hinterval

/-- A table and an integer that is boxed. -/
def busy : Machine :=
  Op.after ((Act.newTable >>= fun _ => modify (·.pushInt 1125899906842624) : Act ScriptError Unit)
    (Host.running (fun _ => pure 0) 0)) (create { collectInterval := some 3 })

/-- With an interval of three the machine with a table and a boxed integer is at its bound. -/
theorem busy_garbage_bounded : busy.heap.interval = some 3 ∧ busy.closed = false ∧ ¬ busy.Finalizes ∧
    busy.heap.allocations = 4 ∧ busy.heap.boxed.live = 1 ∧
    busy.heap.allocations ≤ max 3 2 + busy.heap.boxed.live := by
  have hbusy : busy.Arises (fun _ => pure 0) 0 :=
    .run (.bind .newTable fun _ => .modify fun m => .single (.integer _)) (.create _)
  have hnone : ¬ busy.Finalizes := fun ⟨_, _, hin⟩ => List.not_mem_nil hin
  exact ⟨rfl, rfl, hnone, rfl, rfl, hbusy.garbage_bounded (fun _ => .pure 0) rfl rfl hnone⟩

end Machine

end ScriptHost
