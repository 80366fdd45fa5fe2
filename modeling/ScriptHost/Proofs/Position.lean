import ScriptHost.Proofs.Marshaling

/-! # Positions in a format

While a format is read, reading stands before one element after another: past elements that were read to
their end, and inward through tables, conditions and pairs. An error at a position is the error of the whole
reading. As long as the machine is not closed, what lay on the stack at the start lies at the bottom of it at
every position; and where pairs and items are read, the table that they belong to lies on top.
-/

namespace ScriptHost

open Machine

/-- Where the reading of a format stops, marshaling fails and the stack is cut. -/
theorem Act.marshal_problem {host : Host} {m m' : Machine} {ds : List Directive} {args : List Argument}
    {problem : FormatError} (hread : Reading.format (m.top + 1) ds args host m = .ok (some problem) m') :
    marshal ds args host m = .error problem (m'.setTop m.top) := by
  have hsafe : (safely (Reading.format (m.top + 1) ds args) : Act FormatError (Option FormatError)) host m =
      .ok (some problem) m' := by
    rw [safely, run_mapError, hread]
  rw [marshal, run_bind, run_get]
  exact (bind_ok hsafe).trans rfl

namespace Reading

/-! ## Reading in steps -/

section

variable {α β : Type} {x : Reading α} {f : α → Reading β} {host : Host}
  {args rest rest' : List Argument} {m m' m'' : Machine} {a : α} {b : β} {error : FormatError}

/-- Reading fails, and leaves arguments and a machine. -/
def Fails (x : Reading α) (host : Host) (args : List Argument) (m : Machine) (error : FormatError)
    (rest : List Argument) (m' : Machine) : Prop :=
  StateT.run (ExceptT.run x) args host m = .ok (.error error, rest) m'

theorem Fails.throw : Fails (throw error : Reading α) host args m error args m := rfl

theorem Fails.bind (hx : Fails x host args m error rest m') : Fails (x >>= f) host args m error rest m' :=
  Act.bind_ok hx

theorem Fails.orFail {e : ScriptError} {y : Act ScriptError α} (h : y host m = .error e m') :
    Fails (orFail error y) host args m error args m' := by
  have hattempt : (Act.attempt y : Act Empty (Except ScriptError α)) host m = .ok (.error e) m' := by
    rw [Act.run_attempt, h]
  exact (Act.bind_ok (Yields.perform hattempt)).trans rfl

theorem Yields.bind_fails (hx : Yields x host args m a rest m') (hf : Fails (f a) host rest m' error rest' m'') :
    Fails (x >>= f) host args m error rest' m'' :=
  (Act.bind_ok hx).trans hf

/-- A sequence that succeeds does so operation by operation. -/
theorem Yields.of_bind (h : Yields (x >>= f) host args m b rest' m'') :
    ∃ a rest m', Yields x host args m a rest m' ∧ Yields (f a) host rest m' b rest' m'' := by
  change (StateT.run (ExceptT.run x) args >>= fun result => _) host m = _ at h
  rw [Act.run_bind] at h
  cases hx : StateT.run (ExceptT.run x) args host m with
  | error e _ => exact e.elim
  | ok result m' =>
      obtain ⟨r, rest⟩ := result
      rw [hx] at h
      cases r with
      | ok a => exact ⟨a, rest, m', hx, h⟩
      | error e => cases h

theorem Yields.of_perform {y : Act Empty α} (h : Yields (Reading.perform y) host args m a rest m') :
    y host m = .ok a m' ∧ rest = args := by
  cases hy : y host m with
  | error e _ => exact e.elim
  | ok b m₁ =>
      rw [Yields, Yields.perform hy] at h
      cases h
      exact ⟨rfl, rfl⟩

theorem Yields.of_orFail {y : Act ScriptError α} (h : Yields (Reading.orFail error y) host args m a rest m') :
    y host m = .ok a m' ∧ rest = args := by
  obtain ⟨r, _, _, hperformed, h⟩ := Yields.of_bind h
  obtain ⟨hattempt, rfl⟩ := hperformed.of_perform
  rw [Act.run_attempt] at hattempt
  cases hy : y host m with
  | ok b m₁ =>
      rw [hy] at hattempt
      cases hattempt
      cases h
      exact ⟨rfl, rfl⟩
  | error e m₁ =>
      rw [hy] at hattempt
      cases hattempt
      cases h

theorem Yields.unique {a' : α} (h : Yields x host args m a rest m') (h' : Yields x host args m a' rest' m'') :
    a' = a ∧ rest' = rest ∧ m'' = m' := by
  rw [Yields, h] at h'
  cases h'
  exact ⟨rfl, rfl, rfl⟩

/-- What reading meets holds of a run that succeeds. -/
theorem Meets.yields {P : Machine → Prop} {Q : α → List Argument → Machine → Prop} {E : Machine → Prop}
    (h : Meets host args P x Q E) (hm : P m) (hrun : Yields x host args m a rest m') : Q a rest m' := by
  obtain ⟨r, rest', m'', hmeets, htried⟩ := h m hm
  rw [Yields, hmeets] at hrun
  cases hrun
  exact htried

end

/-! ## Positions -/

/-- Where reading stands: before an element, with the arguments that are left, on a machine. -/
structure Position where
  mode : Mode
  element : Element
  args : List Argument
  machine : Machine

variable {host : Host} {mode : Mode} {es es' : List Element} {args rest rest' : List Argument}
  {m m' m'' : Machine} {error : FormatError} {p p' : Position} {table : StackIndex} {start : Machine}
  {format : List Directive} {n : Nat}

/-- An error of the element at a position. -/
def Position.Fails (p : Position) (host : Host) (error : FormatError) (rest : List Argument) (m' : Machine) :
    Prop :=
  Reading.Fails (Reading.element p.mode p.element) host p.args p.machine error rest m'

/-- From the position before an element to one before an element in it. -/
inductive Position.Opens (host : Host) : Position → Position → Prop where
  | condition {mode e b args m} : Opens host ⟨mode, .condition e, .bool b :: args, m⟩
      ⟨{ mode with suppressed := mode.suppressed || !b }, e, args, m⟩
  | key {mode key value args m} : Opens host ⟨mode, .pair key value, args, m⟩
      ⟨{ mode with asKey := true }, key, args, m⟩
  /-- The key was read. -/
  | value {mode key value args rest m m'} :
      Yields (Reading.element { mode with asKey := true } key) host args m () rest m' →
      Opens host ⟨mode, .pair key value, args, m⟩ ⟨{ mode with asKey := false }, value, rest, m'⟩
  /-- The table is there, with the items before this one. -/
  | item {mode before e after args rest m m'} :
      Yields (Reading.element mode (.table before)) host args m () rest m' →
      Opens host ⟨mode, .table (before ++ e :: after), args, m⟩ ⟨{ mode with asKey := false }, e, rest, m'⟩

/-- The positions that reading some elements comes to. -/
inductive Reaches (host : Host) (mode : Mode) (es : List Element) (args : List Argument) (m : Machine) :
    Position → Prop where
  /-- The elements before this one were read. -/
  | outer {before e after rest m'} : es = before ++ e :: after →
      Yields (all mode before) host args m () rest m' → Reaches host mode es args m ⟨mode, e, rest, m'⟩
  | inner {p p' : Position} : Reaches host mode es args m p → p.Opens host p' → Reaches host mode es args m p'

/-! ## Errors -/

theorem all_fails (hread : Yields (all mode es) host args m () rest m')
    (hfails : Fails (all mode es') host rest m' error rest' m'') :
    Fails (all mode (es ++ es')) host args m error rest' m'' := by
  induction es generalizing args m with
  | nil =>
      cases hread
      exact hfails
  | cons e es ih =>
      rw [all] at hread
      obtain ⟨_, _, _, hfirst, hrest⟩ := hread.of_bind
      exact hfirst.bind_fails (ih hrest)

theorem items_fails (hread : Yields (items mode table es) host args m () rest m')
    (hfails : Fails (items mode table es') host rest m' error rest' m'') :
    Fails (items mode table (es ++ es')) host args m error rest' m'' := by
  induction es generalizing args m with
  | nil =>
      rw [items] at hread
      cases hread
      exact hfails
  | cons e es ih =>
      rw [items] at hread
      obtain ⟨before, _, _, hbefore, hread⟩ := hread.of_bind
      obtain ⟨_, _, _, hfirst, hread⟩ := hread.of_bind
      obtain ⟨after, _, _, hafter, hread⟩ := hread.of_bind
      rw [List.cons_append, items]
      refine hbefore.bind_fails (hfirst.bind_fails (hafter.bind_fails ?_))
      by_cases hpushed : before.top < after.top
      · rw [if_pos hpushed] at hread ⊢
        obtain ⟨_, _, _, happend, hrest⟩ := hread.of_bind
        exact happend.bind_fails (ih hrest)
      · rw [if_neg hpushed] at hread ⊢
        exact ih hread

/-- An error within an element is one of the element. -/
theorem Position.Opens.fails (h : p.Opens host p') (hfails : p'.Fails host error rest m') :
    p.Fails host error rest m' := by
  cases h with
  | condition =>
      rw [Position.Fails, Reading.element]
      exact Yields.condition.bind_fails hfails
  | key =>
      rw [Position.Fails, Reading.element]
      exact hfails.bind
  | value hkey =>
      rw [Position.Fails, Reading.element]
      exact hkey.bind_fails hfails.bind
  | item hbefore =>
      rw [Reading.element] at hbefore
      obtain ⟨_, _, _, hmade, hbefore⟩ := hbefore.of_bind
      obtain ⟨_, _, _, hmachine, hbefore⟩ := hbefore.of_bind
      rw [Position.Fails, Reading.element]
      refine hmade.bind_fails (hmachine.bind_fails (items_fails hbefore ?_))
      rw [items]
      exact Yields.machine.bind_fails hfails.bind

/-- An error at a position is that of the whole reading. -/
theorem Reaches.fails (h : Reaches host mode es args m p) (hfails : p.Fails host error rest m') :
    Fails (all mode es) host args m error rest m' := by
  induction h with
  | outer hes hread =>
      rw [hes]
      refine all_fails hread ?_
      rw [all]
      exact hfails.bind
  | inner _ hopens ih => exact ih (hopens.fails hfails)

theorem Reaches.format_eq {ds : List Directive} (h : Reaches host { start := n } (Format.elements ds) args m p)
    (hfails : p.Fails host error rest m') : Reading.format n ds args host m = .ok (some error) m' :=
  Act.bind_ok (h.fails hfails)

theorem Reaches.marshal_eq {ds : List Directive}
    (h : Reaches host { start := m.top + 1 } (Format.elements ds) args m p) (hfails : p.Fails host error rest m') :
    Act.marshal ds args host m = .error error (m'.setTop m.top) :=
  Act.marshal_problem (h.format_eq hfails)

/-! ## The stack -/

/-- What is known of a position: how the element stands in the format, which values lie on the stack as long
    as the machine is not closed, and that items and pairs find their table on top. -/
structure Position.Stands (start : Machine) (format : List Directive) (own : List Nat) (s : List Value)
    (inside : Bool) (p : Position) : Prop where
  within : p.element.Within format inside
  stack : start.stack.toList <+: s
  midway : Midway start format own (Laid start.base s) p.machine
  table : inside = true → p.mode.suppressed = false → OnTable start own s

/-- The frame begins below what lay on the stack at the start. -/
theorem base_le {s : List Value} (hstart : start.Framed) (hs : start.stack.toList <+: s) : start.base ≤ s.length := by
  refine Nat.le_trans hstart ?_
  rw [← Array.length_toList]
  exact hs.length_le

theorem exists_laid {own : List Nat} {s : List Value} {shown : Bool}
    (h : Midway start format own (Shown format mode shown start.base s) m) :
    ∃ t, Midway start format own (Laid start.base (s ++ t)) m := by
  refine Midway.exists_shape (h.mono fun hshown => ?_)
  cases shown with
  | true =>
      obtain ⟨v, -, hl⟩ := hshown
      exact ⟨[v], hl⟩
  | false => exact ⟨[], by rwa [List.append_nil]⟩

/-- A table of which the items were read lies on top unless it is suppressed. -/
theorem table_read {own : List Nat} {s : List Value} (hhost : host.Lawful) (hstart : start.Reachable)
    (hs : start.stack.toList <+: s) (hes : ∀ e ∈ es, e.Within format true)
    (hmid : Midway start format own (Laid start.base s) m)
    (hread : Yields (element mode (.table es)) host args m () rest m') :
    (mode.suppressed = true → Midway start format own (Laid start.base s) m') ∧
    (mode.suppressed = false → ∃ slot,
      Midway start format (slot :: own) (Laid start.base (s ++ [.table slot])) m') := by
  have hitems : ∀ own s n, start.stack.toList <+: s → (mode.suppressed = false →
      OnTable start own s ∧ start.base + n = s.length) →
      ∀ args, ItemsMeet host start format own s { mode with asKey := false } n es args :=
    fun own s n hs htable args => items_meets hhost hstart _ es hes own s n args hs rfl htable
  rw [element] at hread
  obtain ⟨_, _, m₁, hmade, hread⟩ := hread.of_bind
  obtain ⟨_, _, _, hmachine, hread⟩ := hread.of_bind
  cases hmachine
  refine ⟨fun hmode => ?_, fun hmode => ?_⟩
  · rw [emit, if_pos hmode] at hmade
    cases hmade
    exact (hitems own s _ hs (fun hopen => by rw [hmode] at hopen; cases hopen) _).yields hmid hread
  · rw [emit, if_neg (by simp [hmode])] at hmade
    obtain ⟨slot, m₂, hrun, hmid'⟩ := hmid.newTable hhost hstart hs
    have hyields : Yields (perform Act.newTable) host args m () args m₂ := .perform hrun
    rw [Yields, hmade] at hyields
    cases hyields
    refine ⟨slot, ?_⟩
    by_cases hc : m₁.closed = start.closed
    · have htop := (hmid'.shape hc).top
      have hbase := (hmid'.shape hc).base_le (hmid'.framed hstart.framed)
      exact (hitems _ _ m₁.top (hs.trans (List.prefix_append _ _))
        (fun _ => ⟨⟨s, slot, rfl, List.mem_cons_self, hs⟩, by omega⟩) _).yields hmid' hread
    · exact hmid'.lost hstart.framed hc
        ((items_lawful _ _ es _).run_ok hhost (hmid'.framed hstart.framed) hread)

/-- An item of a table stands above the table. -/
theorem Position.Stands.item {own : List Nat} {s : List Value} {inside : Bool} {before after : List Element}
    {e : Element} (hhost : host.Lawful) (hstart : start.Reachable)
    (h : Stands start format own s inside ⟨mode, .table (before ++ e :: after), args, m⟩)
    (hbefore : Yields (Reading.element mode (.table before)) host args m () rest m') :
    ∃ own s, Stands start format own s true ⟨{ mode with asKey := false }, e, rest, m'⟩ := by
  obtain ⟨hwithin, hs, hmid, -⟩ := h
  cases hwithin with
  | table hes =>
      have he := hes e (List.mem_append_right _ List.mem_cons_self)
      obtain ⟨hclosed, hopen⟩ := table_read hhost hstart hs
        (fun e he => hes e (List.mem_append_left _ he)) hmid hbefore
      rcases Bool.eq_false_or_eq_true mode.suppressed with hmode | hmode
      · exact ⟨own, s, he, hs, hclosed hmode, fun _ h => by rw [hmode] at h; cases h⟩
      · obtain ⟨slot, hmid'⟩ := hopen hmode
        exact ⟨slot :: own, s ++ [.table slot], he, hs.trans (List.prefix_append _ _), hmid',
          fun _ _ => ⟨s, slot, rfl, List.mem_cons_self, hs⟩⟩

theorem Position.Opens.stands {own : List Nat} {s : List Value} {inside : Bool} (hhost : host.Lawful)
    (hstart : start.Reachable) (h : p.Opens host p') (hp : p.Stands start format own s inside) :
    ∃ own s inside, p'.Stands start format own s inside := by
  cases h with
  | condition =>
      obtain ⟨hwithin, hs, hmid, htable⟩ := hp
      cases hwithin with
      | condition he =>
          exact ⟨own, s, inside, he, hs, hmid, fun hin hopen => htable hin (Bool.or_eq_false_iff.mp hopen).1⟩
  | key =>
      obtain ⟨hwithin, hs, hmid, -⟩ := hp
      cases hwithin with
      | pair _ _ hkey _ => exact ⟨own, s, false, hkey, hs, hmid, fun h => by cases h⟩
  | @value mode key value args rest m m' hread =>
      obtain ⟨hwithin, hs, hmid, -⟩ := hp
      cases hwithin with
      | pair _ _ hkey hvalue =>
          have hshown := (element_meets hhost hstart { mode with asKey := true } key hkey own s args hs
            fun h => by cases h).yields hmid hread
          obtain ⟨t, hmid'⟩ := exists_laid hshown
          exact ⟨own, s ++ t, false, hvalue, hs.trans (List.prefix_append _ _), hmid', fun h => by cases h⟩
  | item hbefore =>
      obtain ⟨own, s, hitem⟩ := hp.item hhost hstart hbefore
      exact ⟨own, s, true, hitem⟩

/-- What is known of the positions that reading a format comes to. -/
theorem Reaches.stands {ds : List Directive} (hhost : host.Lawful) (hstart : start.Reachable)
    (h : Reaches host { start := n } (Format.elements ds) args start p) :
    ∃ own s inside, p.Stands start ds own s inside := by
  induction h with
  | @outer before e after rest m' hes hread =>
      have hwithin := Format.elements_within ds (List.Subset.refl ds)
      rw [hes] at hwithin
      have hall := (all_meets hhost hstart n before (fun e he => hwithin e (List.mem_append_left _ he))
        start.stack.toList args (List.prefix_refl _)).yields (.self ⟨rfl, rfl⟩) hread
      obtain ⟨vs, hmid⟩ := Midway.exists_shape (hall.mono fun h => h.imp fun _ h => h.2)
      exact ⟨[], start.stack.toList ++ vs, false, hwithin e (List.mem_append_right _ List.mem_cons_self),
        List.prefix_append _ _, hmid, fun h => by cases h⟩
  | inner _ hopens ih =>
      obtain ⟨own, s, inside, hp⟩ := ih
      exact hopens.stands hhost hstart hp

/-- Positions are read with one start. -/
theorem Reaches.start_eq (h : Reaches host mode es args m p) : p.mode.start = mode.start := by
  induction h with
  | outer => rfl
  | inner _ hopens ih =>
      cases hopens with
      | condition | key | value | item => exact ih

end Reading

end ScriptHost
