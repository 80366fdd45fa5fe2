import ScriptHost.Proofs.Growth
import ScriptHost.Proofs.Handling
import ScriptHost.Proofs.Integrity
import ScriptHost.Proofs.Rendering

/-! # What is left alone

A collection that enters no finalizer changes nothing that its cycle reaches. So code that makes
objects and stores only in tables that it made leaves everything alone that the cycles reach meanwhile,
and they reach what the roots reached at its start.
-/

namespace ScriptHost

namespace Machine

open Event (finalized)

variable {m m' m'' : Machine} {p q : List Nat} {slot f : Nat} {r : Ref}

/-! ## Runs without finalizers -/

/-- No finalizer was entered between two machines. -/
def Silent (m m' : Machine) : Prop := finalized m'.events = finalized m.events

theorem Silent.split (h : Silent m m'') (hfirst : ∃ first, m'.events = first ++ m.events)
    (hlast : ∃ last, m''.events = last ++ m'.events) : Silent m m' ∧ Silent m' m'' := by
  obtain ⟨first, hfirst⟩ := hfirst
  obtain ⟨last, hlast⟩ := hlast
  have happend : ∀ l l' : List Event, finalized (l ++ l') = finalized l ++ finalized l' :=
    fun _ _ => List.filterMap_append
  have hboth : finalized last ++ finalized first = [] := by
    rw [Silent, hlast, hfirst, happend, happend, ← List.append_assoc] at h
    exact List.self_eq_append_left.mp h.symm
  obtain ⟨hlast', hfirst'⟩ := List.append_eq_nil_iff.mp hboth
  refine ⟨?_, ?_⟩
  · rw [Silent, hfirst, happend, hfirst', List.nil_append]
  · rw [Silent, hlast, happend, hlast', List.nil_append]

theorem Silent.split_runs (h : Silent m m'') (hfirst : Runs p m m') (hlast : Runs q m' m'') :
    Silent m m' ∧ Silent m' m'' := h.split hfirst.log hlast.log

/-- The entry of a finalizer is recorded before it is called. -/
theorem prepared_events (hlimit : ¬ (m.prepared slot f).atLimit = true)
    (hf : (m.beginTurn slot).metafield (.userdata slot) .finalizer = .function f) :
    ∃ serial, (m.prepared slot f).events = .finalizing slot serial :: .turn slot :: m.events := by
  have hthere : m.heap.userdata? slot ≠ none := by
    intro hnone
    have hmeta : (m.beginTurn slot).metatable? (.userdata slot) = none := by
      change (m.heap.userdata? slot).bind (·.metatable) = none
      rw [hnone]
      rfl
    rw [metafield, metaEntry, hmeta] at hf
    cases hf
  obtain ⟨u, hu⟩ := Option.ne_none_iff_exists'.mp hthere
  rw [prepared_eq hf] at hlimit ⊢
  dsimp only at hlimit ⊢
  split at hlimit
  · rename_i hat
    exact absurd hat hlimit
  · rename_i hat
    rw [if_neg hat, note_eq]
    refine ⟨u.serial, ?_⟩
    change ((m.heap.userdata? slot).map fun u => Event.finalizing slot u.serial).toList ++
      .turn slot :: m.events = _
    rw [hu]
    rfl

/-- The end of a turn takes away what its preparation put there. -/
theorem endTurn_prepared (m : Machine) (slot f : Nat) :
    (m.prepared slot f).endTurn m.depth m.stack.size = m.turned slot := by
  obtain ⟨events, hturned⟩ := turned_eq m slot
  have hframes : (m.prepared slot f).popGuard.frames.length ≤ m.depth := by
    rw [prepared, hturned]
    exact Nat.le_refl m.depth
  have hstack : ((m.stack.push (.function f)).push (.userdata slot)).shrink m.stack.size = m.stack := by
    rw [← Array.toList_inj, Array.toList_shrink]
    simp
  rw [endTurn, Act.truncateFrames_eq hframes, prepared, hturned]
  exact congrArg (fun stack => { m with heap := m.heap.setFinalized slot, events, stack }) hstack

end Machine

open Machine

namespace Act

variable {ε : Type} {host : Host} {m : Machine} {slot : Nat}

/-- A turn that enters no finalizer is over when it has begun. -/
theorem finalize_silent (hhost : host.Lawful) (hm : m.Framed)
    (hsilent : Silent m (Op.after ((finalize slot : Act ε Unit) host) m)) :
    Op.after ((finalize slot : Act ε Unit) host) m = m.turned slot := by
  by_cases hf : ∃ f, (m.beginTurn slot).metafield (.userdata slot) .finalizer = .function f
  · obtain ⟨f, hf⟩ := hf
    rw [Op.after_ok (finalize_function hf)] at hsilent ⊢
    by_cases hlimit : (m.prepared slot f).atLimit = true
    · -- The call fails at once.
      have hcall : callAt m.stack.size 0 host (m.prepared slot f) =
          .error .stackOverflow (m.prepared slot f) := by
        rw [callAt, invoke_eq, if_pos hlimit]
      rw [Op.after_error hcall, endTurn_prepared]
    · -- The entry is on record, and stays there.
      exfalso
      obtain ⟨serial, hevents⟩ := prepared_events hlimit hf
      have hturned := turned_isolated slot hm
      obtain ⟨events, heq⟩ := turned_eq m slot
      have hcall : Leads (m.prepared slot f) (Op.after (callAt m.stack.size 0 host) (m.prepared slot f)) := by
        refine callAt_leads _ hhost ?_ ?_
        · exact Nat.le_trans (Nat.le_of_eq hturned.base) hm
        · simp only [prepared, pushGuard, push, Array.size_push, heq]
          omega
      have hframed : (m.prepared slot f).Framed := by
        have hguarded : Leads (m.turned slot) (((m.turned slot).push (.function f)).push (.userdata slot)) :=
          leads_push.trans leads_push
        exact (hguarded hturned.framed).framed hturned.framed
      obtain ⟨later, hlater⟩ := (hcall hframed).log
      have hend : ∀ m' : Machine, (m'.endTurn m.depth m.stack.size).events = m'.events := fun _ => rfl
      rw [Silent, hend, hlater, hevents] at hsilent
      have hlength := congrArg List.length hsilent
      simp only [Event.finalized, List.filterMap_append, List.filterMap_cons, Event.serial?,
        List.length_append, List.length_cons] at hlength
      omega
  · exact Op.after_ok (finalize_other fun f h => hf ⟨f, h⟩)

end Act

namespace Machine

/-- A machine that differs in its heap and its log, where nothing has changed that no cycle missed;
    and none missed what the roots reached. -/
structure Tidied (m m' : Machine) : Prop where
  others : ∃ heap events, m' = { m with heap, events }
  kept : ∀ {r}, Retains (.object r) m m' → m'.heap.contents? r = m.heap.contents? r
  retains : ∀ {r}, m.Reached r → Retains (.object r) m m'
  intact : m.Intact → m'.Intact

theorem Tidied.refl (m : Machine) : Tidied m m := ⟨⟨_, _, rfl⟩, fun _ => rfl, fun _ => .refl _ m, id⟩

theorem tidied_cycle (hm : m.heap.Sound) : Tidied m m.cycle.2.2 := by
  obtain ⟨heap, events, heq⟩ := m.cycle_eq
  refine ⟨⟨heap, events, heq⟩, fun {r} hr => ?_, fun {r} hr => ?_, Intact.cycle⟩
  · exact contents?_cycle_of_kept hm (.inl (Retains.cycle_iff.mp hr r rfl))
  · refine Retains.cycle_iff.mpr fun r' hr' => ?_
    cases hr'
    exact hr

/-- Turns that enter no finalizer change no object and start no cycle. -/
structure Idle (m m' : Machine) : Prop where
  others : ∃ heap events, m' = { m with heap, events }
  contents : ∀ r, m'.heap.contents? r = m.heap.contents? r
  retains : ∀ v, Retains v m m'
  intact : m.Intact → m'.Intact

theorem Idle.refl (m : Machine) : Idle m m := ⟨⟨_, _, rfl⟩, fun _ => rfl, fun v => .refl v m, id⟩

theorem Idle.trans (h : Idle m m') (h' : Idle m' m'') : Idle m m'' := by
  obtain ⟨heap, events, hothers⟩ := h.others
  obtain ⟨heap', events', hothers'⟩ := h'.others
  exact ⟨⟨heap', events', by rw [hothers', hothers]⟩, fun r => (h'.contents r).trans (h.contents r),
    fun v => (h.retains v).trans (h'.retains v), fun hm => h'.intact (h.intact hm)⟩

theorem idle_turned (m : Machine) (slot : Nat) : Idle m (m.turned slot) := by
  obtain ⟨events, heq⟩ := turned_eq m slot
  obtain ⟨new, hnew, hplain⟩ := turned_plain m slot
  refine ⟨⟨_, events, heq⟩, fun r => ?_, fun v => .of_plain hnew hplain, fun hm => ?_⟩
  · rw [heq]
    rfl
  · have hset : (m.heap.setFinalized slot).Intact :=
      hm.heap.of_references (Heap.sound_setFinalized hm.heap.sound) (fun _ => rfl) fun _ => id
    rw [heq]
    exact { hm.of_roots hset fun _ _ hv => hv with }

theorem Tidied.idle (h : Tidied m m') (h' : Idle m' m'') (hfirst : ∃ first, m'.events = first ++ m.events)
    (hlast : ∃ last, m''.events = last ++ m'.events) : Tidied m m'' := by
  obtain ⟨heap, events, hothers⟩ := h.others
  obtain ⟨heap', events', hothers'⟩ := h'.others
  exact ⟨⟨heap', events', by rw [hothers', hothers]⟩,
    fun hr => (h'.contents _).trans (h.kept (hr.split hfirst hlast).1),
    fun hr => (h.retains hr).trans (h'.retains _), fun hm => h'.intact (h.intact hm)⟩

end Machine

namespace Act

variable {ε : Type} {host : Host} {m : Machine}

theorem turns_silent (slots : List Nat) (hhost : host.Lawful) (hm : m.Framed)
    (hsilent : Silent m (Op.after ((slots.forM finalize : Act ε PUnit) host) m)) :
    Idle m (Op.after ((slots.forM finalize : Act ε PUnit) host) m) := by
  induction slots generalizing m with
  | nil => exact .refl m
  | cons slot slots ih =>
      rw [after_turns] at hsilent ⊢
      have hrun := finalize_runs (ε := ε) slot hhost hm
      obtain ⟨hfirst, hrest⟩ := hsilent.split_runs hrun (turns_runs slots hhost (hrun.framed hm))
      rw [finalize_silent hhost hm hfirst] at hrest ⊢
      exact (idle_turned m slot).trans (ih (turned_isolated slot hm).framed hrest)

/-- A collection that enters no finalizer leaves alone what its cycle reaches. -/
theorem collect_silent (hhost : host.Lawful) (hm : m.Reachable)
    (hsilent : Silent m (Op.after ((collect : Act ε Nat) host) m)) :
    Tidied m (Op.after ((collect : Act ε Nat) host) m) := by
  cases hclosed : m.closed with
  | true =>
      rw [Op.after_ok (collect_closed hclosed)]
      exact .refl m
  | false =>
      obtain ⟨m', hrun, hcollect⟩ := collect_open (ε := ε) host hclosed
      rw [Op.after_ok hcollect] at hsilent ⊢
      have hcycle := (Move.cycle hclosed).log
      have hframed := (cycle_isolated hm.framed).framed
      have hturns := finalizeAll_runs (ε := ε) m.cycle.1 hhost hframed
      have hidle := turns_silent (ε := ε) m.cycle.1.reverse hhost hframed
      change Silent _ (Op.after ((finalizeAll m.cycle.1 : Act ε Unit) host) m.cycle.2.2) →
        Idle _ (Op.after ((finalizeAll m.cycle.1 : Act ε Unit) host) m.cycle.2.2) at hidle
      rw [Op.after_ok hrun] at hturns hidle
      exact (tidied_cycle hm.heap_sound).idle (hidle (hsilent.split hcycle hturns.log).2) hcycle hturns.log

theorem collectIfDue_silent (hhost : host.Lawful) (hm : m.Reachable) :
    ∃ m', (collectIfDue : Act ε Unit) host m = .ok () m' ∧ Runs [] m m' ∧
      (Silent m m' → Tidied m m') := by
  obtain ⟨m', hrun, hcases⟩ := collectIfDue_cases (ε := ε) host m
  refine ⟨m', hrun, collectIfDue_lawful.run_ok hhost hm.framed hrun, fun hsilent => ?_⟩
  rcases hcases with rfl | ⟨freed, hcollect⟩
  · exact .refl _
  · have htidied := collect_silent (ε := ε) hhost hm
    rw [Op.after_ok hcollect] at htidied
    exact htidied hsilent

end Act

/-! ## New tables -/

namespace Machine

variable {start m m' : Machine} {own own' : List Nat} {slot : Nat} {r : Ref} {key : Key} {v : Value}

/-- A machine that made tables of its own and left everything alone that no cycle missed since; and
    none missed what the roots reached at the start. -/
structure Beside (start : Machine) (own : List Nat) (m : Machine) : Prop where
  others : ∃ stack heap strings events, m = { start with stack, heap, strings, events }
  kept : ∀ {r}, start.heap.contents? r ≠ none → Retains (.object r) start m →
    m.heap.contents? r = start.heap.contents? r
  retains : ∀ {r}, start.Reached r → Retains (.object r) start m
  /-- A table of its own is none that was there before, unless a cycle missed that one. -/
  made : ∀ {slot}, slot ∈ own → start.heap.contents? ⟨.table, slot⟩ ≠ none →
    ¬ Retains (.table slot) start m

/-- What lies on the stack, or on a larger one, is a root, and so are all other values that a machine keeps. -/
theorem IsRoot.extended {stack : Array Value} {heap : Heap Native} {strings : StringPool} {events : List Event}
    (h : m.IsRoot v) (hstack : ∀ w ∈ m.stack, w ∈ stack) :
    IsRoot { m with stack, heap, strings, events } v := by
  cases h with
  | stack hv => exact .stack (hstack _ hv)
  | registry => exact .registry
  | globals => exact .globals
  | cached hv => exact .cached hv
  | handler hg hv => exact .handler hg hv
  | raised hg hd => exact .raised hg hd
  | outcome hg hd => exact .outcome hg hd

theorem beside_self (m : Machine) : Beside m [] m :=
  ⟨⟨_, _, _, _, rfl⟩, fun _ _ => rfl, fun _ => .refl _ m, fun h => by cases h⟩

namespace Beside

theorem mono (h : Beside start own m) (hown : own' ⊆ own) : Beside start own' m :=
  ⟨h.others, h.kept, h.retains, fun hslot => h.made (hown hslot)⟩

theorem closed (h : Beside start own m) : m.closed = start.closed := by
  obtain ⟨stack, heap, strings, events, rfl⟩ := h.others
  rfl

theorem of_eq (h : Beside start own m) {stack : Array Value} {strings : StringPool} :
    Beside start own { m with stack, strings } := by
  obtain ⟨stack', heap, strings', events, heq⟩ := h.others
  exact ⟨⟨stack, heap, strings, events, by rw [heq]⟩, h.kept, h.retains, h.made⟩

/-- What the roots reached at the start they still reach. -/
theorem reached (h : Beside start own m) (hstack : start.stack.toList <+: m.stack.toList)
    (hr : start.Reached r) : m.Reached r := by
  induction hr with
  | @start v r hv hr =>
      refine .start ?_ hr
      obtain ⟨stack, heap, strings, events, rfl⟩ := h.others
      exact hv.extended fun w hw => Array.mem_toList_iff.mp (hstack.mem (Array.mem_toList_iff.mpr hw))
  | @step r v r' hreach hv hr ih =>
      have hsame := h.kept (Heap.contents?_of_holds hv) (h.retains hreach)
      exact .step ih (Heap.holds_congr hsame hv) hr

/-- A new object lies where none was, or where a cycle had missed one. -/
theorem allocate (h : Beside start own m) {heap : Heap Native} {c : Heap.Contents Native}
    (hmade : m.heap.Allocates heap r c) : Beside start own { m with heap } ∧
      ∀ slot, r = ⟨.table, slot⟩ → Beside start (slot :: own) { m with heap } := by
  obtain ⟨stack, heap', strings, events, hothers⟩ := h.others
  have hkept : ∀ {r'}, start.heap.contents? r' ≠ none → Retains (.object r') start m →
      heap.contents? r' = start.heap.contents? r' := by
    intro r' hr' hretains
    have hsame := h.kept hr' hretains
    exact (hmade.keeps (by rw [hsame]; exact hr')).trans hsame
  have hgrown : Beside start own { m with heap } :=
    ⟨⟨stack, heap, strings, events, by rw [hothers]⟩, hkept, h.retains, h.made⟩
  refine ⟨hgrown, fun slot hslot => ⟨hgrown.others, hgrown.kept, hgrown.retains,
    fun {s} hs hthere hretains => ?_⟩⟩
  rcases List.mem_cons.mp hs with rfl | hs
  · have hsame := h.kept hthere hretains
    rw [← hslot, hmade.fresh, hslot] at hsame
    exact hthere hsame.symm
  · exact h.made hs hthere hretains

theorem setEntry (h : Beside start own m) (hslot : slot ∈ own) :
    Beside start own (m.setEntry slot key v) := by
  obtain ⟨stack, heap, strings, events, hothers⟩ := h.others
  refine ⟨⟨stack, _, strings, events, by rw [hothers]; rfl⟩, fun {r} hr hretains => ?_, h.retains, h.made⟩
  have hne : r ≠ ⟨.table, slot⟩ := by
    rintro rfl
    exact h.made hslot hr hretains
  exact (contents?_setEntry hne).trans (h.kept hr hretains)

theorem tidied (h : Beside start own m) (hstack : start.stack.toList <+: m.stack.toList)
    (htidied : Tidied m m') (hfirst : ∃ first, m.events = first ++ start.events)
    (hlast : ∃ last, m'.events = last ++ m.events) : Beside start own m' := by
  obtain ⟨stack, heap, strings, events, hothers⟩ := h.others
  obtain ⟨heap', events', hothers'⟩ := htidied.others
  refine ⟨⟨stack, heap', strings, events', by rw [hothers', hothers]⟩, fun hr hretains => ?_,
    fun hr => (h.retains hr).trans (htidied.retains (h.reached hstack hr)),
    fun hs hthere hretains => h.made hs hthere (hretains.split hfirst hlast).1⟩
  obtain ⟨hbefore, hafter⟩ := hretains.split hfirst hlast
  exact (htidied.kept hafter).trans (h.kept hr hbefore)

end Beside

end Machine

end ScriptHost
