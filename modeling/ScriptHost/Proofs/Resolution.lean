import Mathlib.Data.Nat.Find
import ScriptHost.Proofs.Integrity
import ScriptHost.Proofs.KeyIdentity
import ScriptHost.Proofs.Precedence

/-! # Where accesses end

The metafields of values make chains that share tails and run in circles, so an access may come to a table,
to a function or to a value that cannot be indexed, or to none of these. Which one it is depends only on the
values that it passes, and it is the same question for reads and for writes.
-/

namespace ScriptHost

/-- How an access ends. -/
inductive Ending where
  /-- At a table, which has an entry for the key or no field to go on by. -/
  | table (slot : Nat)
  /-- With a function, the field of a value, for which it is called. -/
  | handler (function : Nat) (v : Value)
  /-- At a value that cannot be indexed. -/
  | refused (v : Value)
  /-- After so many values that each pointed on to the next. -/
  | lost
  deriving DecidableEq, Repr

/-- The outcome of a look, with another result where the access ends. -/
def Hop.map {α β : Type} (f : α → β) : Hop α → Hop β
  | .done a => .done (f a)
  | .handler g => .handler g
  | .follow v => .follow v

namespace Machine

/-- The value that an access comes to after so many steps, each to a field of the value before. -/
def along (m : Machine) (f : Metafield) (v : Value) : Nat → Value
  | 0 => v
  | n + 1 => m.metafield (m.along f v n) f

/-- An access ends at a value. -/
inductive Stops (m : Machine) (f : Metafield) (key : Value) : Value → Ending → Prop where
  | entry {slot} : (m.rawGet slot key).isNil = false → Stops m f key (.table slot) (.table slot)
  | bare {slot} : (m.metafield (.table slot) f).isNil = true → Stops m f key (.table slot) (.table slot)
  | called {v g} : m.metafield v f = .function g →
      (∀ slot, v = .table slot → (m.rawGet slot key).isNil = true) → Stops m f key v (.handler g v)
  | refused {v} : (m.metafield v f).isNil = true → (∀ slot, v ≠ .table slot) → Stops m f key v (.refused v)

/-- An access goes on from a value to a field of it. -/
structure Forwards (m : Machine) (f : Metafield) (key v : Value) : Prop where
  field : (m.metafield v f).isNil = false
  follow : ∀ g, m.metafield v f ≠ .function g
  lacks : ∀ slot, v = .table slot → (m.rawGet slot key).isNil = true

/-- An access from a value comes to an ending: the first of so many values that does not point on decides. -/
inductive Arrives (m : Machine) (f : Metafield) (key v : Value) (bound : Nat) : Ending → Prop where
  | stops {e} (n : Nat) : n < bound → (∀ k < n, m.Forwards f key (m.along f v k)) →
      m.Stops f key (m.along f v n) e → Arrives m f key v bound e
  | lost : (∀ k < bound, m.Forwards f key (m.along f v k)) → Arrives m f key v bound .lost

/-! ## One ending -/

variable {m : Machine} {f : Metafield} {key v w : Value} {slot g n bound : Nat} {e e' : Ending}

theorem stops_or_forwards (m : Machine) (f : Metafield) (key v : Value) :
    (∃ e, m.Stops f key v e) ∨ m.Forwards f key v := by
  by_cases htable : ∃ slot, v = .table slot ∧ (m.rawGet slot key).isNil = false
  · obtain ⟨slot, rfl, hentry⟩ := htable
    exact .inl ⟨_, .entry hentry⟩
  · have hlacks : ∀ slot, v = .table slot → (m.rawGet slot key).isNil = true := fun slot hv =>
      Bool.not_eq_false _ |>.mp fun hentry => htable ⟨slot, hv, hentry⟩
    by_cases hfield : (m.metafield v f).isNil = true
    · by_cases hv : ∃ slot, v = .table slot
      · obtain ⟨slot, rfl⟩ := hv
        exact .inl ⟨_, .bare hfield⟩
      · exact .inl ⟨_, .refused hfield fun slot h => hv ⟨slot, h⟩⟩
    · by_cases hcalled : ∃ g, m.metafield v f = .function g
      · obtain ⟨g, hg⟩ := hcalled
        exact .inl ⟨_, .called hg hlacks⟩
      · exact .inr ⟨Bool.eq_false_iff.mpr hfield, fun g hg => hcalled ⟨g, hg⟩, hlacks⟩

theorem Forwards.not_stops (h : m.Forwards f key v) : ¬ m.Stops f key v e := by
  intro hstops
  cases hstops with
  | entry hentry => simp [h.lacks _ rfl] at hentry
  | bare hfield => simp [h.field] at hfield
  | called hg _ => exact h.follow _ hg
  | refused hfield _ => simp [h.field] at hfield

theorem Stops.unique (h : m.Stops f key v e) (h' : m.Stops f key v e') : e = e' := by
  have hfunction : ∀ {v g}, m.metafield v f = .function g → ¬ (m.metafield v f).isNil = true := by
    intro v g hg hfield
    rw [hg] at hfield
    cases hfield
  cases h with
  | entry hentry =>
      cases h' with
      | entry | bare => rfl
      | called _ hlacks => simp [hlacks _ rfl] at hentry
      | refused _ hv => exact absurd rfl (hv _)
  | bare hfield =>
      cases h' with
      | entry | bare => rfl
      | called hg _ => exact absurd hfield (hfunction hg)
      | refused _ hv => exact absurd rfl (hv _)
  | called hg hlacks =>
      cases h' with
      | entry hentry => simp [hlacks _ rfl] at hentry
      | bare hfield => exact absurd hfield (hfunction hg)
      | called hg' _ =>
          rw [hg] at hg'
          cases hg'
          rfl
      | refused hfield _ => exact absurd hfield (hfunction hg)
  | refused hfield hv =>
      cases h' with
      | entry | bare => exact absurd rfl (hv _)
      | called hg _ => exact absurd hfield (hfunction hg)
      | refused => rfl

theorem not_stops_lost : ¬ m.Stops f key v .lost := by
  intro h
  cases h

/-- Whatever links the tables and userdata have, an access comes to one ending. -/
theorem arrives_unique (m : Machine) (f : Metafield) (key v : Value) (bound : Nat) :
    ∃! e, m.Arrives f key v bound e := by
  by_cases hall : ∀ k < bound, m.Forwards f key (m.along f v k)
  · refine ⟨.lost, .lost hall, fun e he => ?_⟩
    cases he with
    | stops n hn _ hstops => exact absurd hstops (hall n hn).not_stops
    | lost => rfl
  · -- The first value that does not point on is where every arrival stops.
    push Not at hall
    classical
    obtain ⟨hlt, hnot⟩ := Nat.find_spec hall
    have hbefore : ∀ k < Nat.find hall, m.Forwards f key (m.along f v k) := fun k hk =>
      not_not.mp fun hk' => Nat.find_min hall hk ⟨hk.trans hlt, hk'⟩
    obtain ⟨e, he⟩ := (m.stops_or_forwards f key (m.along f v (Nat.find hall))).resolve_right hnot
    refine ⟨e, .stops _ hlt hbefore he, fun e' he' => ?_⟩
    cases he' with
    | lost hall' => exact absurd (hall' _ hlt) hnot
    | stops n hn hbefore' hstops =>
        rcases Nat.lt_trichotomy n (Nat.find hall) with hless | rfl | hmore
        · exact absurd hstops (hbefore n hless).not_stops
        · exact hstops.unique he
        · exact absurd (hbefore' _ hmore) hnot

/-! ## One look -/

/-- What a look at a value finds: the table where an access ends, or how it goes on. -/
def look (m : Machine) (f : Metafield) (key v : Value) : Except Fault (Hop Nat) :=
  let field := m.metafield v f
  match v with
  | .table slot =>
      if field.isNil || !(m.rawGet slot key).isNil then .ok (.done slot) else .ok (.through field)
  | v => if field.isNil then .error (.notIndexable (m.describe v)) else .ok (.through field)

theorem writeHop_eq (m : Machine) (v key : Value) : m.writeHop v key = m.look .newindex key v := rfl

/-- A read looks at values as a write does, and takes the entry of the table. -/
theorem readHop_eq (m : Machine) (v key : Value) : m.readHop v key =
    (m.look .index key v).map fun hop => hop.map (m.rawGet · key) := by
  have hthrough : ∀ w : Value, (Hop.through w : Hop Value) = (Hop.through w).map (m.rawGet · key) := by
    intro w
    cases w with
    | object r => cases r with | mk kind slot => cases kind <;> rfl
    | nil | bool | float | int | string | light | foreign => rfl
  by_cases hv : ∃ slot, v = .table slot
  · obtain ⟨slot, rfl⟩ := hv
    simp only [readHop, look]
    cases (m.rawGet slot key).isNil <;> cases (m.metafield (.table slot) .index).isNil
    case true.false => exact congrArg Except.ok (hthrough _)
    all_goals rfl
  · have hother : ∀ slot, v ≠ .table slot := fun slot h => hv ⟨slot, h⟩
    simp only [readHop, look]
    cases (m.metafield v .index).isNil
    · exact congrArg Except.ok (hthrough _)
    · rfl

theorem look_forwards (h : m.Forwards f key v) : m.look f key v = .ok (.follow (m.metafield v f)) := by
  have hfollow : (Hop.through (m.metafield v f) : Hop Nat) = .follow (m.metafield v f) := by
    have hfunction := h.follow
    unfold Hop.through
    split
    · exact absurd ‹_› (hfunction _)
    · rfl
  unfold look
  split
  · simp [h.lacks _ rfl, h.field, hfollow]
  · simp [h.field, hfollow]

theorem look_table (h : m.Stops f key v (.table slot)) : m.look f key v = .ok (.done slot) := by
  cases h with
  | entry hentry => simp [look, hentry]
  | bare hfield => simp [look, hfield]

theorem look_handler (h : m.Stops f key v (.handler g w)) : w = v ∧ m.look f key v = .ok (.handler g) := by
  cases h with
  | called hg hlacks =>
      refine ⟨rfl, ?_⟩
      unfold look
      split
      · simp only [hlacks _ rfl, hg]
        rfl
      · simp only [hg]
        rfl

theorem look_refused (h : m.Stops f key v (.refused w)) :
    w = v ∧ m.look f key v = .error (.notIndexable (m.describe v)) := by
  cases h with
  | refused hfield hv =>
      refine ⟨rfl, ?_⟩
      unfold look
      split
      · exact absurd rfl (hv _)
      · simp [hfield]

/-! ## The whole way -/

/-- While values point on, what goes on from a value to its field does so from the value that it has come to. -/
theorem run_along {α : Type} {r : Value → Nat → α}
    (hstep : ∀ {w}, m.Forwards f key w → ∀ fuel, r w (fuel + 1) = r (m.metafield w f) fuel)
    (h : ∀ k < n, m.Forwards f key (m.along f v k)) (fuel : Nat) : r v (n + fuel) = r (m.along f v n) fuel := by
  induction n generalizing fuel with
  | zero => rw [Nat.zero_add, along]
  | succ n ih =>
      rw [Nat.add_assoc, Nat.add_comm 1, ih (fun k hk => h k (Nat.lt_succ_of_lt hk)),
        hstep (h n (Nat.lt_succ_self n)), along]

end Machine

namespace Act

open Machine

variable {host : Host} {m : Machine} {key v w new : Value} {slot g n : Nat} {e : Ending}

theorem readChain_step (h : m.Forwards .index key v) (fuel : Nat) :
    readChain v key (fuel + 1) host m = readChain (m.metafield v .index) key fuel host m := by
  rw [readChain, run_bind, run_get]
  simp only [readHop_eq, look_forwards h]
  rfl

theorem writeChain_step (h : m.Forwards .newindex key v) (fuel : Nat) :
    writeChain v key new (fuel + 1) host m = writeChain (m.metafield v .newindex) key new fuel host m := by
  rw [writeChain, run_bind, run_get]
  simp only [writeHop_eq, look_forwards h]

theorem readChain_along (h : ∀ k < n, m.Forwards .index key (m.along .index v k)) (fuel : Nat) :
    readChain v key (n + fuel) host m = readChain (m.along .index v n) key fuel host m :=
  run_along (r := fun w fuel => readChain w key fuel host m) readChain_step h fuel

theorem writeChain_along (h : ∀ k < n, m.Forwards .newindex key (m.along .newindex v k)) (fuel : Nat) :
    writeChain v key new (n + fuel) host m = writeChain (m.along .newindex v n) key new fuel host m :=
  run_along (r := fun w fuel => writeChain w key new fuel host m) writeChain_step h fuel

/-! ## Ends -/

theorem readChain_table (h : m.Stops .index key v (.table slot)) (fuel : Nat) :
    readChain v key (fuel + 1) host m = .ok (m.rawGet slot key) m := by
  rw [readChain, run_bind, run_get]
  simp only [readHop_eq, look_table h]
  rfl

theorem readChain_refused (h : m.Stops .index key v (.refused w)) (fuel : Nat) :
    readChain v key (fuel + 1) host m = .error (.ofFault (.notIndexable (m.describe w))) m := by
  obtain ⟨rfl, hlook⟩ := look_refused h
  rw [readChain, run_bind, run_get]
  simp only [readHop_eq, hlook]
  rfl

theorem writeChain_table (h : m.Stops .newindex key v (.table slot)) (fuel : Nat) :
    writeChain v key new (fuel + 1) host m = Op.rawStore slot key new m := by
  rw [writeChain, run_bind, run_get]
  simp only [writeHop_eq, look_table h]
  rfl

theorem writeChain_refused (h : m.Stops .newindex key v (.refused w)) (fuel : Nat) :
    writeChain v key new (fuel + 1) host m = .error (.ofFault (.notIndexable (m.describe w))) m := by
  obtain ⟨rfl, hlook⟩ := look_refused h
  rw [writeChain, run_bind, run_get]
  simp only [writeHop_eq, hlook]
  rfl

theorem writeChain_handler (h : m.Stops .newindex key v (.handler g w)) (fuel : Nat) :
    writeChain v key new (fuel + 1) host m =
      (do callAt m.stack.size 0; modify (·.truncate m.stack.size) : Act ScriptError Unit) host
        (m.pushCall g [w, key, new]) := by
  obtain ⟨rfl, hlook⟩ := look_handler h
  rw [writeChain, run_bind, run_get]
  simp only [writeHop_eq, hlook]
  rfl

theorem readChain_handler (h : m.Stops .index key v (.handler g w)) (fuel : Nat) :
    readChain v key (fuel + 1) host m =
      (do
        callAt m.stack.size 1
        let result := (← get).stack[m.stack.size]?.getD .nil
        modify (·.truncate m.stack.size)
        pure result : Act ScriptError Value) host (m.pushCall g [w, key]) := by
  obtain ⟨rfl, hlook⟩ := look_handler h
  rw [readChain, run_bind, run_get]
  simp only [readHop_eq, hlook]
  rfl

end Act

/-! ## What is left to a function -/

namespace Machine

variable {m : Machine} {s : Array Value}

theorem truncate_prefix {vs : List Value} (h : m.stack.toList = s.toList ++ vs) :
    m.truncate s.size = { m with stack := s } := by
  have hcut : m.stack.shrink s.size = s := by
    rw [← Array.toList_inj, Array.toList_shrink, h, ← Array.length_toList, List.take_left]
  rw [truncate, hcut]

theorem pop_prefix (vs : List Value) (h : m.stack.toList = s.toList ++ vs) (hs : m.base ≤ s.size) :
    m.pop vs.length = { m with stack := s } := by
  have hsize : m.stack.size = s.size + vs.length := by
    rw [← Array.length_toList, h, List.length_append, Array.length_toList]
  have hlevel : max (m.stack.size - vs.length) m.base = s.size := by omega
  rw [pop, hlevel, truncate_prefix h]

end Machine

/-- A function that was called has been left, with a stack; all else is as it left it. -/
structure Machine.Concludes (m left : Machine) (s : Array Value) (m' : Machine) : Prop where
  stack : m'.stack = s
  frames : m'.frames = m.frames
  heap : m'.heap = left.heap
  strings : m'.strings = left.strings
  closed : m'.closed = left.closed

/-- An access is left to a function. It is not called beyond the limits, and else once: an error of it is that
    of the access, and of what it returns the access makes a result and a stack. -/
structure Delegates {α : Type} (host : Host) (m : Machine) (g : Nat) (args : List Value)
    (answer : Value → α × Array Value) (outcome : EStateM.Result ScriptError Machine α) : Prop where
  full : (m.pushCall g args).atLimit = true → outcome = .error .stackOverflow (m.pushCall g args)
  called : (m.pushCall g args).atLimit = false → ∃ fn, m.heap.function? g = some fn ∧
    (∀ e left, host.enter fn.body.behaviour (m.inCall g args fn.body.origin) = .error e left →
      ∃ m', outcome = .error e m') ∧
    ∀ n left, host.enter fn.body.behaviour (m.inCall g args fn.body.origin) = .ok n left →
      left.closed = m.closed →
      ∃ m', outcome = .ok (answer (left.result n)).1 m' ∧ m.Concludes left (answer (left.result n)).2 m'

namespace Act

open Machine

variable {host : Host} {m : Machine} {key v w new : Value} {slot g n : Nat} {args : List Value}
  {s : Array Value} {i : StackIndex}

/-- What follows a call for so many results makes them a result and a stack. -/
theorem delegates {α : Type} {answer : Value → α × Array Value}
    {outcome : EStateM.Result ScriptError Machine α} (wanted : Nat) (hhost : host.Lawful)
    (hg : m.heap.function? g ≠ none)
    (hfails : ∀ e m', callAt m.stack.size wanted host (m.pushCall g args) = .error e m' →
      outcome = .error e m')
    (hreturns : ∀ vs m', callAt m.stack.size wanted host (m.pushCall g args) = .ok () m' →
      m'.stack.toList = m.stack.toList ++ fitted wanted vs → m'.frames = m.frames →
      outcome = .ok (answer (vs.headD .nil)).1 { m' with stack := (answer (vs.headD .nil)).2 }) :
    Delegates host m g args answer outcome := by
  obtain ⟨fn, hf⟩ := Option.ne_none_iff_exists'.mp hg
  refine ⟨fun hfull => hfails _ _ ?_,
    fun hroom => ⟨fn, hf, fun e left hrun => ?_, fun n left hrun hclosed => ?_⟩⟩
  · rw [callAt, invoke_eq, if_pos hfull]
  · exact ⟨_, hfails _ _ ((enters_inCall hroom hf).fails hrun wanted)⟩
  · obtain ⟨m', hcall, hstack, hframes, hheap, hstrings, hclosed⟩ :=
      callAt_returned wanted hhost hroom hf hrun hclosed
    exact ⟨_, hreturns _ m' hcall hstack hframes, ⟨rfl, hframes, hheap, hstrings, hclosed⟩⟩

theorem getTable_eq (hstack : m.stack = s.push key) (hs : m.base ≤ s.size) :
    getTable i host m = (do
      let v ← readChain (m.value i) key maxChain
      modify fun m => (m.pop 1).push v
      pure v.kind : Act ScriptError ValueKind) host m := by
  have hm : m = ({ m with stack := s } : Machine).push key := by rw [push, ← hstack]
  have htop : m.topValue = key := by
    rw [hm]
    exact topValue_push hs
  rw [getTable, run_bind, run_get]
  simp only [htop]

theorem setTable_eq (hstack : m.stack = (s.push key).push new) (hs : m.base ≤ s.size) :
    setTable i host m = (do
      writeChain (m.value i) key new maxChain
      modify (·.pop 2) : Act ScriptError Unit) host m := by
  have hl : Laid m.base ((s.toList ++ [key]) ++ new :: []) m := ⟨rfl, by simp [hstack]⟩
  have hl' : Laid m.base (s.toList ++ key :: [new]) m := ⟨rfl, by simp [hstack]⟩
  have hb : m.base ≤ s.toList.length := by rwa [Array.length_toList]
  have htop : m.topValue = new := hl.value_fromTop (by simp; omega) rfl
  have hbelow : m.value (.fromTop 2) = key := hl'.value_fromTop hb rfl
  rw [setTable, run_bind, run_get]
  simp only [htop, hbelow]

theorem getTable_ok {m' : Machine} {a : Value} (hstack : m.stack = s.push key) (hs : m.base ≤ s.size)
    (h : readChain (m.value i) key maxChain host m = .ok a m') :
    getTable i host m = .ok a.kind ((m'.pop 1).push a) := by
  rw [getTable_eq hstack hs, bind_ok h]
  rfl

theorem getTable_error {m' : Machine} {e : ScriptError} (hstack : m.stack = s.push key) (hs : m.base ≤ s.size)
    (h : readChain (m.value i) key maxChain host m = .error e m') : getTable i host m = .error e m' := by
  rw [getTable_eq hstack hs, run_bind, h]

theorem setTable_ok {m' : Machine} (hstack : m.stack = (s.push key).push new) (hs : m.base ≤ s.size)
    (h : writeChain (m.value i) key new maxChain host m = .ok () m') :
    setTable i host m = .ok () (m'.pop 2) := by
  rw [setTable_eq hstack hs, bind_ok h]
  rfl

theorem setTable_error {m' : Machine} {e : ScriptError} (hstack : m.stack = (s.push key).push new)
    (hs : m.base ≤ s.size) (h : writeChain (m.value i) key new maxChain host m = .error e m') :
    setTable i host m = .error e m' := by
  rw [setTable_eq hstack hs, run_bind, h]

/-- A read that ends with a function is left to it. -/
theorem getTable_delegates (hhost : host.Lawful) (hg : m.heap.function? g ≠ none)
    (hstack : m.stack = s.push key) (hs : m.base ≤ s.size)
    (hchain : readChain (m.value i) key maxChain host m = (do
        callAt m.stack.size 1
        let result := (← get).stack[m.stack.size]?.getD .nil
        modify (·.truncate m.stack.size)
        pure result : Act ScriptError Value) host (m.pushCall g [w, key])) :
    Delegates host m g [w, key] (fun a => (a.kind, s.push a)) (getTable i host m) := by
  refine delegates 1 hhost hg (fun e m' hcall => ?_) fun vs m' hcall hleft hframes => ?_
  · refine getTable_error hstack hs ?_
    have hcall' : callAt m.stack.size 1 host (m.pushCall g [w, key]) = .error e m' := hcall
    rw [hchain, run_bind, hcall']
  · have hcall' : callAt m.stack.size 1 host (m.pushCall g [w, key]) = .ok () m' := hcall
    have hat : m'.stack[m.stack.size]?.getD .nil = vs.headD .nil := by
      rw [← Array.getElem?_toList, hleft, fitted_one, ← Array.length_toList, List.getElem?_concat_length,
        Option.getD_some]
    have hpop : ({ m' with stack := m.stack } : Machine).pop 1 = { m' with stack := s } := by
      refine pop_prefix [key] (by simp [hstack]) ?_
      rw [base, hframes]
      exact hs
    have hread : readChain (m.value i) key maxChain host m =
        .ok (vs.headD .nil) { m' with stack := m.stack } := by
      rw [hchain, bind_ok hcall', run_bind, run_get]
      simp only [hat, run_bind, run_modify, run_pure, truncate_prefix hleft]
    rw [getTable_ok hstack hs hread, hpop]
    rfl

theorem setTable_delegates (hhost : host.Lawful) (hg : m.heap.function? g ≠ none)
    (hstack : m.stack = (s.push key).push new) (hs : m.base ≤ s.size)
    (hchain : writeChain (m.value i) key new maxChain host m =
      (do callAt m.stack.size 0; modify (·.truncate m.stack.size) : Act ScriptError Unit) host
        (m.pushCall g [w, key, new])) :
    Delegates host m g [w, key, new] (fun _ => ((), s)) (setTable i host m) := by
  refine delegates 0 hhost hg (fun e m' hcall => ?_) fun vs m' hcall hleft hframes => ?_
  · refine setTable_error hstack hs ?_
    have hcall' : callAt m.stack.size 0 host (m.pushCall g [w, key, new]) = .error e m' := hcall
    rw [hchain, run_bind, hcall']
  · have hcall' : callAt m.stack.size 0 host (m.pushCall g [w, key, new]) = .ok () m' := hcall
    have hpop : ({ m' with stack := m.stack } : Machine).pop 2 = { m' with stack := s } := by
      refine pop_prefix [key, new] (by simp [hstack]) ?_
      rw [base, hframes]
      exact hs
    have hwrite : writeChain (m.value i) key new maxChain host m = .ok () { m' with stack := m.stack } := by
      rw [hchain, bind_ok hcall', run_modify, truncate_prefix hleft]
    rw [setTable_ok hstack hs hwrite, hpop]

end Act

/-! ## Entries and objects on the way -/

namespace Machine

variable {m : Machine} {f : Metafield} {key v w new : Value} {slot g n bound : Nat} {k : Key} {e : Ending}

theorem table_setEntry_self (hslot : m.heap.contents? ⟨.table, slot⟩ ≠ none) :
    (m.setEntry slot k v).heap.table slot = (m.heap.table slot).set k v := by
  obtain ⟨c, hc⟩ := Option.ne_none_iff_exists'.mp hslot
  obtain ⟨t, ht, -⟩ := Option.map_eq_some_iff.mp hc
  rw [table_setEntry_get ht, table_of_get ht]

theorem table_setEntry_other {slot' : Nat} (h : slot' ≠ slot) :
    (m.setEntry slot k v).heap.table slot' = m.heap.table slot' := by
  simp only [setEntry, Heap.table, Heap.modifyTable, Arena.get?_modify, if_neg h]

/-- A store changes one entry of one table. -/
theorem get_setEntry (hm : m.Reachable) (hslot : m.heap.contents? ⟨.table, slot⟩ ≠ none) (x : Value)
    (slot' : Nat) (k' : Key) : ((m.setEntry slot k x).heap.table slot').get k' =
      if slot' = slot ∧ k' = k then x else (m.heap.table slot').get k' := by
  by_cases hslot' : slot' = slot
  · subst hslot'
    rw [table_setEntry_self hslot, ((hm.parted slot').layered.set k x).2]
    simp only [true_and]
  · rw [table_setEntry_other hslot', if_neg fun h => hslot' h.1]

/-- An access comes only to what is there. -/
theorem Intact.along (hm : m.Intact) (hv : m.heap.Present v) (n : Nat) : m.heap.Present (m.along f v n) := by
  cases n with
  | zero => exact hv
  | succ n => exact hm.metafield _ f

theorem Stops.table_present (h : m.Stops f key v (.table slot)) (hv : m.heap.Present v) :
    m.heap.contents? ⟨.table, slot⟩ ≠ none := by
  cases h with
  | entry | bare => exact Heap.present_object.mp hv

theorem Stops.function_present (h : m.Stops f key v (.handler g w)) (hm : m.Intact) :
    m.heap.function? g ≠ none := by
  cases h with
  | called hg _ =>
      have hthere := Heap.present_object.mp (hg ▸ hm.metafield v f)
      exact fun hnone => hthere (Option.map_eq_none_iff.mpr hnone)

end Machine

/-! ## Reads and writes -/

open Machine

/-- What a read comes to whose key lies above a stack: the entry of the table where it ends, what the function
    makes of it, or an error that leaves everything as it was. -/
def Ending.Read (m : Machine) (host : Host) (key : Value) (s : Array Value)
    (outcome : EStateM.Result ScriptError Machine ValueKind) : Ending → Prop
  | .table slot => outcome = .ok (m.rawGet slot key).kind { m with stack := s.push (m.rawGet slot key) }
  | .handler g v => Delegates host m g [v, key] (fun a => (a.kind, s.push a)) outcome
  | .refused v => outcome = .error (.ofFault (.notIndexable (m.describe v))) m
  | .lost => outcome = .error (.ofFault .indexChainTooLong) m

/-- What a write comes to whose key and value lie above a stack: one entry of the table where it ends is
    changed, or a function is called, or there is an error that leaves everything as it was. -/
def Ending.Written (m : Machine) (host : Host) (key new : Value) (s : Array Value)
    (outcome : EStateM.Result ScriptError Machine Unit) : Ending → Prop
  | .table slot =>
      (∀ k, m.heap.key? key = some k →
        outcome = .ok () { m.setEntry slot k new with stack := s } ∧
        ∀ slot' k', ((m.setEntry slot k new).heap.table slot').get k' =
          if slot' = slot ∧ k' = k then new else (m.heap.table slot').get k') ∧
      (m.heap.key? key = none →
        outcome = .error (.ofFault (.key (if key.isNil then .isNil else .isNaN))) m)
  | .handler g v => Delegates host m g [v, key, new] (fun _ => ((), s)) outcome
  | .refused v => outcome = .error (.ofFault (.notIndexable (m.describe v))) m
  | .lost => outcome = .error (.ofFault .newindexChainTooLong) m

section Access

variable {host : Host} {m : Machine} {key new : Value} {s : Array Value} {i : StackIndex} {e : Ending}

theorem rawStore_refused {slot : Nat} (h : m.heap.key? key = none) :
    Op.rawStore slot key new m = .error (.ofFault (.key (if key.isNil then .isNil else .isNaN))) m := by
  rw [Op.rawStore, Op.bind_ok Op.run_get, h]
  cases key <;> rfl

theorem Machine.Arrives.read (he : m.Arrives .index key (m.value i) maxChain e) (hi : m.Intact)
    (hhost : host.Lawful) (hstack : m.stack = s.push key) (hs : m.base ≤ s.size) :
    e.Read m host key s (Act.getTable i host m) := by
  have hbelow : m.pop 1 = { m with stack := s } := pop_prefix [key] (by simp [hstack]) hs
  cases he with
  | lost hall =>
      refine Act.getTable_error hstack hs ?_
      rw [← Nat.add_zero maxChain, Act.readChain_along hall]
      rfl
  | stops n hn hbefore hstops =>
      obtain ⟨rest, hrest⟩ : ∃ rest, maxChain = n + (rest + 1) := ⟨maxChain - n - 1, by omega⟩
      have hchain : Act.readChain (m.value i) key maxChain host m =
          Act.readChain (m.along .index (m.value i) n) key (rest + 1) host m :=
        hrest ▸ Act.readChain_along hbefore (rest + 1)
      cases e with
      | table slot =>
          have hread := Act.getTable_ok hstack hs (hchain.trans (Act.readChain_table hstops rest))
          rw [hbelow] at hread
          exact hread
      | handler g v =>
          exact Act.getTable_delegates hhost (hstops.function_present hi) hstack hs
            (hchain.trans (Act.readChain_handler hstops rest))
      | refused v => exact Act.getTable_error hstack hs (hchain.trans (Act.readChain_refused hstops rest))
      | lost => exact absurd hstops not_stops_lost

theorem Machine.Arrives.written (he : m.Arrives .newindex key (m.value i) maxChain e) (hm : m.Reachable)
    (hi : m.Intact) (hhost : host.Lawful) (hstack : m.stack = (s.push key).push new) (hs : m.base ≤ s.size) :
    e.Written m host key new s (Act.setTable i host m) := by
  cases he with
  | lost hall =>
      refine Act.setTable_error hstack hs ?_
      rw [← Nat.add_zero maxChain, Act.writeChain_along hall]
      rfl
  | stops n hn hbefore hstops =>
      obtain ⟨rest, hrest⟩ : ∃ rest, maxChain = n + (rest + 1) := ⟨maxChain - n - 1, by omega⟩
      have hchain : Act.writeChain (m.value i) key new maxChain host m =
          Act.writeChain (m.along .newindex (m.value i) n) key new (rest + 1) host m :=
        hrest ▸ Act.writeChain_along hbefore (rest + 1)
      cases e with
      | table slot =>
          have hstore := hchain.trans (Act.writeChain_table hstops rest)
          refine ⟨fun k hk => ⟨?_, ?_⟩, fun hk => ?_⟩
          · have hpop : (m.setEntry slot k new).pop 2 = { m.setEntry slot k new with stack := s } :=
              pop_prefix [key, new] (by simp [setEntry, hstack]) hs
            rw [Act.setTable_ok hstack hs (hstore.trans (rawStore_key hk new)), hpop]
          · exact get_setEntry hm (hstops.table_present (hi.along (hi.value i) n)) new
          · exact Act.setTable_error hstack hs (hstore.trans (rawStore_refused hk))
      | handler g v =>
          exact Act.setTable_delegates hhost (hstops.function_present hi) hstack hs
            (hchain.trans (Act.writeChain_handler hstops rest))
      | refused v => exact Act.setTable_error hstack hs (hchain.trans (Act.writeChain_refused hstops rest))
      | lost => exact absurd hstops not_stops_lost

end Access

namespace Machine

variable {m : Machine} {s : Array Value} {host : Host}

/-- Reads and writes through metatables that are linked in whatever way come to one ending each, within the
    bound on the values that they pass, and do what this ending says. -/
theorem Reachable.access_resolved (hm : m.Reachable) (hi : m.Intact) (hhost : host.Lawful) (i : StackIndex)
    (key : Value) (hs : m.base ≤ s.size) :
    (m.stack = s.push key →
      (∃! e, m.Arrives .index key (m.value i) maxChain e) ∧
      ∀ e, m.Arrives .index key (m.value i) maxChain e → e.Read m host key s (Act.getTable i host m)) ∧
    ∀ new, m.stack = (s.push key).push new →
      (∃! e, m.Arrives .newindex key (m.value i) maxChain e) ∧
      ∀ e, m.Arrives .newindex key (m.value i) maxChain e →
        e.Written m host key new s (Act.setTable i host m) :=
  ⟨fun hstack => ⟨m.arrives_unique .index key (m.value i) maxChain, fun _ he => he.read hi hhost hstack hs⟩,
    fun _ hstack => ⟨m.arrives_unique .newindex key (m.value i) maxChain,
      fun _ he => he.written hm hi hhost hstack hs⟩⟩

/-- A table that points to itself and has no entry for the key forwards an access for ever. -/
theorem arrives_loop {f : Metafield} {key : Value} {slot : Nat}
    (hfield : m.metafield (.table slot) f = .table slot) (hentry : (m.rawGet slot key).isNil = true)
    (bound : Nat) : m.Arrives f key (.table slot) bound .lost := by
  have halong : ∀ n, m.along f (.table slot) n = .table slot := fun n => by
    induction n with
    | zero => rfl
    | succ n ih => rw [along, ih, hfield]
  refine .lost fun k _ => ?_
  rw [halong]
  refine ⟨by rw [hfield]; rfl, fun g hg => ?_, fun slot' h => ?_⟩
  · rw [hfield] at hg
    cases hg
  · cases h
    exact hentry

/-- A table is on top that is its own metatable and has some metafields. -/
def ownMeta (fields : List (Metafield × Value)) : Machine :=
  let h := (create {}).heap.newTable.2.modifyTable 2 fun t => { t with metatable := some 2 }
  let h := fields.foldl (fun h e => h.modifyTable 2 fun t => t.set (.string e.1.id) e.2) h
  { create {} with heap := h }.push (.table 2)

theorem ownMeta_sound (fields : List (Metafield × Value))
    (hfields : ∀ e ∈ fields, (ownMeta []).heap.Present e.2) :
    (ownMeta fields).Reachable ∧ (ownMeta fields).Intact := by
  have hthere : (create {}).heap.newTable.2.Present (.table 2) :=
    Heap.present_object.mpr (Option.some_ne_none _)
  have hstep : ∀ {h h' : Heap Native}, h.Change h' → (h.Intact → h'.Intact) →
      Reachable { create {} with heap := h } ∧ Intact { create {} with heap := h } →
      Reachable { create {} with heap := h' } ∧ Intact { create {} with heap := h' } := fun hc hintact h =>
    ⟨h.1.moves (.single (.change (.heap _ hc))), h.2.change hc (hintact h.2.heap)⟩
  have hnew := hstep .newTable (fun h => h.gains_newTable.intact h)
    ⟨reachable_create {}, intact_create {}⟩
  have hmeta := hstep (.tableMeta 2 (some 2))
    (fun h => h.setTableMeta fun slot hslot => Option.some.inj hslot ▸ hthere) hnew
  have htable : (ownMeta []).heap.Present (.table 2) := Heap.present_object.mpr (Option.some_ne_none _)
  -- Setting the fields keeps what is there, so that each of them may be stored.
  obtain ⟨hkept, hreachable, hintact⟩ := List.foldlRecOn
    (motive := fun h : Heap Native => (∀ v, (ownMeta []).heap.Present v → h.Present v) ∧
      Reachable { create {} with heap := h } ∧ Intact { create {} with heap := h })
    fields (fun h e => h.modifyTable 2 fun t => t.set (.string e.1.id) e.2) ⟨fun _ hv => hv, hmeta⟩ (by
      rintro h ⟨hkept, hm⟩ e he
      have hc : h.Change (h.modifyTable 2 fun t => t.set (.string e.1.id) e.2) := .entry _ _ _
      have hkey : ∀ w, (Key.string e.1.id).object? = some w → h.Present w := fun w hw => by cases hw
      exact ⟨fun v hv => hc.present hm.2.heap.sound (hkept v hv),
        hstep hc (fun h => h.setEntry hkey (hkept _ (hfields e he))) hm⟩)
  exact ⟨hreachable.push _, hintact.push (hkept _ htable)⟩

/-- A table that points to itself, and a key. -/
def looped : Machine := (ownMeta [(.index, .table 2), (.newindex, .table 2)]).push (.int 1)

theorem looped_sound : looped.Reachable ∧ looped.Intact := by
  obtain ⟨hreachable, hintact⟩ := ownMeta_sound [(.index, .table 2), (.newindex, .table 2)] (by
    simp only [List.mem_cons, List.not_mem_nil, or_false, forall_eq_or_imp, forall_eq, Heap.present_object]
    exact ⟨Option.some_ne_none _, Option.some_ne_none _⟩)
  exact ⟨hreachable.push _, hintact.push (Heap.present_of_ref? rfl)⟩

/-- Neither a read nor a write comes to an end there, and nothing has changed. -/
theorem looped_access :
    Act.getTable (.fromBottom 1) (Programs.host [] 1) looped = .error (.ofFault .indexChainTooLong) looped ∧
    Act.setTable (.fromBottom 1) (Programs.host [] 1) (looped.push (.int 5)) =
      .error (.ofFault .newindexChainTooLong) (looped.push (.int 5)) := by
  obtain ⟨hm, hi⟩ := looped_sound
  have hindex : looped.metafield (.table 2) .index = .table 2 := by decide
  have hnewindex : (looped.push (.int 5)).metafield (.table 2) .newindex = .table 2 := by decide
  have hlacks : (looped.rawGet 2 (.int 1)).isNil = true := by decide
  have hlacks' : ((looped.push (.int 5)).rawGet 2 (.int 1)).isNil = true := by decide
  obtain ⟨hread, -⟩ := hm.access_resolved hi (Programs.host_lawful 1) (.fromBottom 1) (.int 1)
    (show looped.base ≤ (#[.table 2] : Array Value).size by decide)
  obtain ⟨-, hwrite⟩ := (hm.push (.int 5)).access_resolved (hi.push (Heap.present_of_ref? rfl))
    (Programs.host_lawful 1) (.fromBottom 1) (.int 1)
    (show (looped.push (.int 5)).base ≤ (#[.table 2] : Array Value).size by decide)
  exact ⟨(hread rfl).2 _ (arrives_loop hindex hlacks maxChain),
    (hwrite (.int 5) rfl).2 _ (arrives_loop hnewindex hlacks' maxChain)⟩

end Machine

end ScriptHost
