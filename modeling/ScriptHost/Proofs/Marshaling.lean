import ScriptHost.Proofs.Marshal
import ScriptHost.Proofs.Outcome

/-! # Reading elements

An element that is read to its end has pushed one value, unless it is suppressed or a pair, which lands
in the table below it. Where reading stops, the values below are still there, and the arguments did not
suit the element.
-/

namespace ScriptHost

open Machine

namespace Element

/-- Whether an element that is read to its end pushes a value. -/
def pushes (suppressed : Bool) : Element → List Argument → Bool
  | .scalar _, _ | .table _, _ => !suppressed
  | .condition e, args => e.pushes (suppressed || args.head? != some (.bool true)) args.tail
  | .pair _ _, _ | .bad _, _ => false

/-- What is suppressed pushes nothing. -/
theorem pushes_true (e : Element) (args : List Argument) : e.pushes true args = false := by
  cases e with
  | scalar | table => rw [pushes, Bool.not_true]
  | pair | bad => rw [pushes]
  | condition e =>
      rw [pushes, Bool.true_or]
      exact pushes_true e args.tail
termination_by sizeOf e

theorem pushes_operand {e : Element} {args : List Argument} {asKey suppressed : Bool}
    (he : e.isOperand = true) (hfits : e.Fits asKey suppressed args) :
    e.pushes suppressed args = !suppressed := by
  cases e with
  | scalar | table => rw [pushes]
  | condition | pair => cases he
  | bad e =>
      rw [Fits] at hfits
      exact hfits.elim

/-- Whether a false condition in front of an element suppresses it. -/
def isSuppressed : Element → List Argument → Bool
  | .condition e, args => args.head? != some (.bool true) || e.isSuppressed args.tail
  | .scalar _, _ | .table _, _ | .pair _ _, _ | .bad _, _ => false

/-- How many elements are not suppressed. -/
def unsuppressed : List Element → List Argument → Nat
  | [], _ => 0
  | e :: es, args => (if e.isSuppressed args then 0 else 1) + unsuppressed es (args.drop e.arity)

/-- Outside of tables elements push a value unless a false condition suppresses them. -/
theorem pushes_eq {format : List Directive} {asKey suppressed : Bool} {e : Element} {args : List Argument}
    (he : e.Within format false) (hfits : e.Fits asKey suppressed args) :
    e.pushes suppressed args = !(suppressed || e.isSuppressed args) := by
  cases e with
  | scalar | table => rw [pushes, isSuppressed, Bool.or_false]
  | condition e =>
      cases he with
      | condition he =>
          rw [Fits] at hfits
          obtain ⟨b, rest, rfl, hfits⟩ := hfits
          have hhead : ((Argument.bool b :: rest).head? != some (.bool true)) = !b := by
            cases b <;> rfl
          rw [pushes, isSuppressed, hhead, List.tail_cons, pushes_eq he hfits, Bool.or_assoc]
  | pair => cases he
  | bad e =>
      rw [Fits] at hfits
      exact hfits.elim
termination_by sizeOf e

end Element

namespace Reading

open Element (FitsAll unsuppressed)

variable {host : Host} {start : Machine} {format : List Directive} {own : List Nat}
  {s : List Value} {mode : Mode} {e : Element} {args : List Argument}

/-- On top lies a table that was made since, above all that was there at the start. -/
def OnTable (start : Machine) (own : List Nat) (s : List Value) : Prop :=
  ∃ below slot, s = below ++ [.table slot] ∧ slot ∈ own ∧ start.stack.toList <+: below

/-- How an element is read. -/
def ElementMeets (host : Host) (start : Machine) (format : List Directive) (own : List Nat)
    (s : List Value) (mode : Mode) (e : Element) (args : List Argument) : Prop :=
  Meets host args (Midway start format own (Laid start.base s)) (element mode e)
    (fun _ _ => Midway start format own (Shown format mode (e.pushes mode.suppressed args) start.base s))
    (Midway start format own (Stopped format start.base s (e.Fits mode.asKey mode.suppressed args)))

/-- How the elements of a table are read. -/
def ItemsMeet (host : Host) (start : Machine) (format : List Directive) (own : List Nat)
    (s : List Value) (mode : Mode) (n : Nat) (es : List Element) (args : List Argument) : Prop :=
  Meets host args (Midway start format own (Laid start.base s)) (items mode (.fromBottom n) es)
    (fun _ _ => Midway start format own (Laid start.base s))
    (Midway start format own (Stopped format start.base s (FitsAll mode.suppressed es args)))

theorem table_meets {es : List Element} (hhost : host.Lawful) (hstart : start.Reachable)
    (hs : start.stack.toList <+: s)
    (hitems : ∀ own s n, start.stack.toList <+: s → (mode.suppressed = false →
      OnTable start own s ∧ start.base + n = s.length) →
      ItemsMeet host start format own s { mode with asKey := false } n es args) :
    ElementMeets host start format own s mode (.table es) args := by
  have hbase : start.base ≤ s.length := Nat.le_trans hstart.framed (by
    rw [← Array.length_toList]
    exact hs.length_le)
  have hlawful : (do items { mode with asKey := false } (.fromBottom (← machine).top) es :
      Reading Unit).Lawful := .bind .machine fun _ => items_lawful _ _ es
  unfold ElementMeets
  rw [element, Element.pushes, Element.Fits]
  rcases Bool.eq_false_or_eq_true mode.suppressed with hmode | hmode
  · -- Nothing is made, and the elements of the table push nothing either.
    have hemit : emit mode Act.newTable = pure () := if_pos hmode
    refine .bind (Q := fun _ rest m => Midway start format own (Laid start.base s) m ∧ rest = args) ?_
      fun _ rest => .and_pre fun hrest => .machine_bind fun m hm => ?_
    · rw [hemit]
      exact .pure fun m hm => ⟨hm, rfl⟩
    · subst hrest
      refine ((hitems own s m.top hs fun h => by simp [hmode] at h).start hm).post
        (fun _ _ m hm => ?_) fun _ => id
      rw [hmode]
      exact hm
  · have hemit : emit mode Act.newTable = perform Act.newTable := if_neg (by simp [hmode])
    refine .bind (Q := fun _ rest m => (∃ slot, Midway start format (slot :: own)
      (Laid start.base (s ++ [.table slot])) m) ∧ rest = args) ?_ fun _ rest =>
        .and_pre fun hrest => .exists_pre fun slot => ?_
    · rw [hemit]
      refine .perform fun m hm => ?_
      obtain ⟨slot, m', hrun, hm'⟩ := hm.newTable hhost hstart hs
      exact ⟨(), m', hrun, ⟨slot, hm'⟩, rfl⟩
    · subst hrest
      have hread : Meets host rest
          (Midway start format (slot :: own) (Laid start.base (s ++ [.table slot])))
          (do items { mode with asKey := false } (.fromBottom (← machine).top) es)
          (fun _ _ => Midway start format (slot :: own) (Laid start.base (s ++ [.table slot])))
          (Midway start format (slot :: own)
            (Stopped format start.base (s ++ [.table slot]) (FitsAll mode.suppressed es rest))) := by
        refine .of_open hhost hstart.framed hlawful (.machine_bind fun m ⟨hm, hc⟩ => ?_)
        have htop := (hm.shape hc).top
        rw [List.length_append, List.length_singleton] at htop
        refine (hitems (slot :: own) (s ++ [.table slot]) m.top (hs.trans (List.prefix_append _ _))
          fun _ => ⟨⟨s, slot, rfl, List.mem_cons_self, hs⟩, ?_⟩).start hm
        rw [List.length_append, List.length_singleton]
        omega
      refine hread.post (fun _ _ m hm => (hm.forget (List.subset_cons_self _ _)).mono fun hl => ?_)
        fun m hm => (hm.forget (List.subset_cons_self _ _)).mono fun h => ⟨h.1.below, h.2⟩
      rw [hmode]
      exact ⟨.table slot, fun _ _ => by simp [Key.ofValue?], hl⟩

theorem condition_meets (he : ∀ b rest, ElementMeets host start format own s
      { mode with suppressed := mode.suppressed || !b } e rest) : ElementMeets host start format own s mode (.condition e) args := by
  unfold ElementMeets
  rw [element]
  refine .condition (fun hargs => stopped_of_laid fun _ hfits => ?_) fun b rest hargs => ?_
  · rw [Element.Fits] at hfits
    obtain ⟨b, rest, h, -⟩ := hfits
    exact hargs b rest h
  · have hholds : (args.head? != some (.bool true)) = !b := by
      rw [hargs]
      cases b <;> rfl
    refine (he b rest).post (fun _ _ m hm => ?_) fun m hm => ?_
    · rw [Element.pushes, hholds, hargs]
      exact hm
    · refine hm.mono fun h => ⟨h.1, fun hself hfits => h.2 hself ?_⟩
      rw [Element.Fits] at hfits
      obtain ⟨b', rest', h', hfits⟩ := hfits
      rw [hargs] at h'
      cases h'
      exact hfits

/-- A value that is pushed has a place of its own; as a key it is fit to be one. -/
theorem Meets.of_shown {α : Type} {x : Reading α} {Q : α → List Argument → Machine → Prop} {E : Machine → Prop}
    (h : ∀ v, (SelfContained format → mode.asKey = true → Key.ofValue? v ≠ none) →
      Meets host args (Midway start format own (Laid start.base (s ++ [v]))) x Q E) :
    Meets host args (Midway start format own (Shown format mode true start.base s)) x Q E := by
  intro m hm
  have hshape : Midway start format own (fun m => ∃ v : { v : Value //
      SelfContained format → mode.asKey = true → Key.ofValue? v ≠ none },
      Laid start.base (s ++ [v.1]) m) m := hm.mono fun ⟨v, hv, hl⟩ => ⟨⟨v, hv⟩, hl⟩
  have : Nonempty { v : Value // SelfContained format → mode.asKey = true → Key.ofValue? v ≠ none } :=
    ⟨⟨.bool true, fun _ _ => by simp [Key.ofValue?]⟩⟩
  obtain ⟨⟨v, hv⟩, hm⟩ := hshape.exists_shape
  exact h v hv m hm

theorem key?_ne_none {v : Value} (hv : Key.ofValue? v ≠ none) (h : Heap Native) : h.key? v ≠ none := by
  unfold Heap.key?
  split
  · simp
  · exact hv

/-- Key and value are stored in the table below them. -/
theorem store_meets {fits : Prop} {w v : Value} (hhost : host.Lawful) (hstart : start.Reachable)
    (htable : OnTable start own s) (hw : SelfContained format → Key.ofValue? w ≠ none) :
    Meets host args (Midway start format own (Laid start.base (s ++ [w] ++ [v])))
      (orFail .nullKey (Op.rawSet (.fromTop 3))) (fun _ _ => Midway start format own (Laid start.base s))
      (Midway start format own (Stopped format start.base s fits)) := by
  have hlawful : (liftM (Op.rawSet (.fromTop 3)) : Act ScriptError Unit).Lawful := .lift (Op.rawSet_lawful _)
  refine .of_open hhost hstart.framed (.orFail hlawful) (.orFail fun m hm => ?_)
  obtain ⟨hm, hc⟩ := hm
  obtain ⟨below, slot, rfl, hslot, hbelow⟩ := htable
  have hbase : start.base ≤ below.length := Nat.le_trans hstart.framed (by
    rw [← Array.length_toList]
    exact hbelow.length_le)
  have hl := hm.shape hc
  rw [Act.run_lift]
  cases hkey : m.heap.key? w with
  | none =>
      obtain ⟨e, hrun⟩ := Op.rawSet_error hl hbase hkey
      rw [hrun]
      refine hm.mono fun hl => ⟨hl.over.below, fun hself => absurd hkey (key?_ne_none (hw hself) _)⟩
  | some key =>
      have hrun := Op.rawSet_eq hl hbase hkey
      rw [hrun]
      refine hm.step hstart.framed (hlawful.run_ok hhost (hm.framed hstart.framed) hrun) (fun _ hl => ?_)
        fun _ _ hb => (hb.setEntry hslot).of_eq
      have hset : Laid start.base (below ++ [.table slot] ++ ([w] ++ [v])) (m.setEntry slot key v) := by
        rw [← List.append_assoc]
        exact hl.of_eq rfl rfl
      exact hset.pop (by rw [List.length_append]; omega) rfl

theorem pair_meets {key value : Element} (hhost : host.Lawful) (hstart : start.Reachable)
    (hs : start.stack.toList <+: s) (hkeyOperand : key.isOperand = true) (hvalueOperand : value.isOperand = true)
    (htable : mode.suppressed = false → OnTable start own s)
    (hkey : ElementMeets host start format own s { mode with asKey := true } key args)
    (hvalue : ∀ t rest, start.stack.toList <+: t →
      ElementMeets host start format own t { mode with asKey := false } value rest) :
    ElementMeets host start format own s mode (.pair key value) args := by
  unfold ElementMeets
  rw [element, Element.pushes, Element.Fits]
  refine .bind ((hkey.post (fun _ _ _ => id) fun m hm => hm.mono fun h =>
    ⟨h.1, fun hself hfits => h.2 hself hfits.1⟩).ensures (element_ensures _ key args)) fun _ rest =>
      .and_pre fun ⟨hfits, hrest⟩ => ?_
  rw [Element.pushes_operand hkeyOperand hfits]
  have hread : ∀ t, Meets host rest (Midway start format own (Laid start.base (s ++ t)))
      (element { mode with asKey := false } value)
      (fun _ _ => Midway start format own (Shown format { mode with asKey := false } (!mode.suppressed)
        start.base (s ++ t)))
      (Midway start format own (Stopped format start.base s
        (key.Fits true mode.suppressed args ∧ value.Fits false mode.suppressed (args.drop key.arity)))) := by
    intro t
    refine (((hvalue (s ++ t) rest (hs.trans (List.prefix_append _ _))).ensures
      (element_ensures _ value rest)).post (fun _ _ m hm => ?_) fun m hm => hm.mono fun h =>
        ⟨h.1.below, fun hself hfits => h.2 hself (hrest ▸ hfits.2)⟩)
    rw [← Element.pushes_operand hvalueOperand hm.2.1]
    exact hm.1
  rcases Bool.eq_false_or_eq_true mode.suppressed with hmode | hmode
  · rw [hmode] at hread ⊢
    have hnone := hread []
    rw [List.append_nil] at hnone
    exact .bind hnone fun _ _ => .pure fun _ hm => hm
  · rw [hmode] at hread ⊢
    refine .of_shown fun w hw => .bind (hread [w]) fun _ _ => .of_shown fun v _ => ?_
    exact store_meets hhost hstart (htable hmode) fun hself => hw hself rfl

theorem items_nil_meets (n : Nat) : ItemsMeet host start format own s mode n [] args := by
  unfold ItemsMeet
  rw [items]
  exact .pure fun _ => id

theorem items_cons_meets {es : List Element} {n : Nat} (hhost : host.Lawful) (hstart : start.Reachable)
    (hplain : mode.asKey = false)
    (htable : mode.suppressed = false → OnTable start own s ∧ start.base + n = s.length)
    (he : ElementMeets host start format own s mode e args)
    (hes : ∀ rest, ItemsMeet host start format own s mode n es rest) :
    ItemsMeet host start format own s mode n (e :: es) args := by
  have hlawful := items_lawful mode (.fromBottom n) es
  have happend : (liftM (Op.append (.fromBottom n)) : Act ScriptError Unit).Lawful := .lift (Op.append_lawful _)
  have hwhole := items_lawful mode (.fromBottom n) (e :: es)
  rw [items] at hwhole
  unfold ItemsMeet
  rw [items, FitsAll]
  refine .of_open hhost hstart.framed hwhole (.machine_bind fun m ⟨hm, hc⟩ => ?_)
  have htop := (hm.shape hc).top
  refine .bind (((he.start hm).ensures (element_ensures mode e args)).post (fun _ _ _ => id) fun m hm =>
    hm.mono fun h => ⟨h.1, fun hself hfits => h.2 hself (hplain ▸ hfits.1)⟩) fun _ rest =>
      .and_pre fun ⟨hfits, hrest⟩ => ?_
  have hread : Meets host rest (Midway start format own (Laid start.base s))
      (items mode (.fromBottom n) es) (fun _ _ => Midway start format own (Laid start.base s))
      (Midway start format own (Stopped format start.base s
        (e.Fits false mode.suppressed args ∧ FitsAll mode.suppressed es (args.drop e.arity)))) :=
    (hes rest).post (fun _ _ _ => id) fun m hm => hm.mono fun h =>
      ⟨h.1, fun hself hfits => h.2 hself (hrest ▸ hfits.2)⟩
  refine .of_open hhost hstart.framed (.bind .machine fun _ => .ite (.bind (.orFail happend) fun _ => hlawful)
    hlawful) (.machine_bind fun m' ⟨hm', hc'⟩ => ?_)
  cases hpushes : e.pushes mode.suppressed args with
  | false =>
      rw [hpushes] at hm'
      have htop' := (hm'.shape hc').top
      rw [if_neg (by omega)]
      exact hread.start hm'
  | true =>
      rw [hpushes] at hm'
      have hopen : mode.suppressed = false := by
        by_contra hsuppressed
        rw [Bool.not_eq_false] at hsuppressed
        rw [hsuppressed, Element.pushes_true] at hpushes
        cases hpushes
      obtain ⟨⟨below, slot, rfl, hslot, hbelow⟩, hn⟩ := htable hopen
      have hbase : start.base ≤ below.length := Nat.le_trans hstart.framed (by
        rw [← Array.length_toList]
        exact hbelow.length_le)
      obtain ⟨v, -, hl⟩ := hm'.shape hc'
      have htop' := hl.top
      simp only [List.length_append, List.length_singleton] at htop htop' hn
      rw [if_pos (by omega)]
      refine .bind (Q := fun _ rest' m => Midway start format own (Laid start.base (below ++ [.table slot])) m ∧
        rest' = rest) (.orFail fun m heq => ?_) fun _ rest' => .and_pre fun h => h ▸ hread
      subst heq
      have hrun := Op.append_eq hl hbase hn
      rw [Act.run_lift, hrun]
      refine ⟨hm'.step hstart.framed (happend.run_ok hhost (hm'.framed hstart.framed) hrun) (fun _ _ => ?_)
        fun _ _ hb => (hb.setEntry hslot).of_eq, rfl⟩
      have hset : Laid start.base (below ++ [.table slot] ++ [v])
          (m.setEntry slot (.integer ((m.heap.table slot).length + 1)) v) := hl.of_eq rfl rfl
      exact hset.pop (by rw [List.length_append]; omega) rfl

mutual
/-- Reading an element pushes its value if it has one, or stops with the values below. -/
theorem element_meets (hhost : host.Lawful) (hstart : start.Reachable) (mode : Mode) (e : Element)
    {inside : Bool} (he : e.Within format inside) (own : List Nat) (s : List Value) (args : List Argument)
    (hs : start.stack.toList <+: s)
    (htable : inside = true → mode.suppressed = false → OnTable start own s) :
    ElementMeets host start format own s mode e args := by
  cases e with
  | scalar d =>
      cases he with
      | scalar hd hmem =>
          have hscalar : ScalarMeets host start format own start.base s mode d args :=
            scalar_meets hhost hstart hs mode hd hmem args
          unfold ElementMeets
          rw [element, Element.pushes]
          exact hscalar
  | table es =>
      cases he with
      | table hes =>
          exact table_meets hhost hstart hs fun own s n hs htable =>
            items_meets hhost hstart { mode with asKey := false } es hes own s n args hs rfl htable
  | condition e =>
      cases he with
      | condition he =>
          exact condition_meets fun b rest => element_meets hhost hstart _ e he own s rest hs
            fun hinside hopen => htable hinside (Bool.or_eq_false_iff.mp hopen).1
  | pair key value =>
      cases he with
      | pair hkeyOperand hvalueOperand hkey hvalue =>
          exact pair_meets hhost hstart hs hkeyOperand hvalueOperand (htable rfl)
            (element_meets hhost hstart _ key hkey own s args hs fun h => by cases h)
            fun t rest ht => element_meets hhost hstart _ value hvalue own t rest ht fun h => by cases h
  | bad e =>
      unfold ElementMeets
      rw [element, Element.Fits]
      exact .throw (stopped_of_laid fun _ => id)
termination_by sizeOf e

theorem items_meets (hhost : host.Lawful) (hstart : start.Reachable) (mode : Mode) (es : List Element)
    (hes : ∀ e ∈ es, e.Within format true) (own : List Nat) (s : List Value) (n : Nat) (args : List Argument)
    (hs : start.stack.toList <+: s) (hplain : mode.asKey = false)
    (htable : mode.suppressed = false → OnTable start own s ∧ start.base + n = s.length) :
    ItemsMeet host start format own s mode n es args := by
  cases es with
  | nil => exact items_nil_meets n
  | cons e es =>
      exact items_cons_meets hhost hstart hplain htable
        (element_meets hhost hstart mode e (hes e List.mem_cons_self) own s args hs fun _ h => (htable h).1)
        fun rest => items_meets hhost hstart mode es (fun e he => hes e (List.mem_cons_of_mem _ he)) own s n
          rest hs hplain htable
termination_by sizeOf es
end

/-! ## Formats -/

theorem all_meets (hhost : host.Lawful) (hstart : start.Reachable) (n : Nat) (es : List Element)
    (hes : ∀ e ∈ es, e.Within format false) (s : List Value) (args : List Argument)
    (hs : start.stack.toList <+: s) :
    Meets host args (Midway start format [] (Laid start.base s)) (all { start := n } es)
      (fun _ _ => Midway start format [] fun m => ∃ vs, vs.length = unsuppressed es args ∧ Laid start.base (s ++ vs) m)
      (Midway start format [] (Stopped format start.base s (FitsAll false es args))) := by
  induction es generalizing s args with
  | nil => exact .pure fun m hm => hm.mono fun hl => ⟨[], rfl, by rw [List.append_nil]; exact hl⟩
  | cons e es ih =>
      have he := element_meets hhost hstart { start := n } e (hes e List.mem_cons_self) [] s args hs
        fun h => by cases h
      have hrest : ∀ vs rest, Meets host rest (Midway start format [] (Laid start.base (s ++ vs)))
          (all { start := n } es) (fun _ _ => Midway start format [] fun m => ∃ ws,
            ws.length = unsuppressed es rest ∧ Laid start.base (s ++ vs ++ ws) m)
          (Midway start format [] (Stopped format start.base s (FitsAll false es rest))) := fun vs rest =>
        (ih (fun e he => hes e (List.mem_cons_of_mem _ he)) (s ++ vs) rest
          (hs.trans (List.prefix_append _ _))).post (fun _ _ _ => id) fun m hm => hm.mono fun h => ⟨h.1.below, h.2⟩
      rw [FitsAll, unsuppressed]
      refine .bind ((he.ensures (element_ensures _ e args)).post (fun _ _ _ => id) fun m hm =>
        hm.mono fun h => ⟨h.1, fun hself hfits => h.2 hself hfits.1⟩) fun _ rest => .and_pre fun h => ?_
      obtain ⟨hfits, rfl⟩ := h
      rw [Element.pushes_eq (hes e List.mem_cons_self) hfits, Bool.false_or]
      have hstop : ∀ m, Midway start format [] (Stopped format start.base s
          (FitsAll false es (args.drop e.arity))) m → Midway start format [] (Stopped format start.base s
            (e.Fits false false args ∧ FitsAll false es (args.drop e.arity))) m :=
        fun m hm => hm.mono fun h => ⟨h.1, fun hself hfits => h.2 hself hfits.2⟩
      cases e.isSuppressed args with
      | true =>
          have hnone := hrest [] (args.drop e.arity)
          rw [List.append_nil] at hnone
          refine hnone.post (fun _ _ m hm => hm.mono fun ⟨ws, hlength, hl⟩ => ⟨ws, ?_, hl⟩) hstop
          rw [hlength, if_pos rfl, Nat.zero_add]
      | false =>
          refine .of_shown fun v _ => (hrest [v] (args.drop e.arity)).post
            (fun _ _ m hm => hm.mono fun ⟨ws, hlength, hl⟩ => ⟨v :: ws, ?_, ?_⟩) hstop
          · rw [List.length_cons, hlength, if_neg Bool.false_ne_true, Nat.add_comm]
          · rw [List.append_cons]
            exact hl

/-- A format is read to its end, or stops at an error. -/
theorem format_meets (hhost : host.Lawful) (hstart : start.Reachable) (n : Nat) (ds : List Directive)
    (args : List Argument) : ∃ problem m', Reading.format n ds args host start = .ok problem m' ∧
      (problem = none → FitsAll false (Format.elements ds) args ∧ Midway start ds [] (fun m => ∃ vs,
        vs.length = unsuppressed (Format.elements ds) args ∧
          Laid start.base (start.stack.toList ++ vs) m) m') ∧
      (problem ≠ none → Midway start ds []
        (Stopped ds start.base start.stack.toList (FitsAll false (Format.elements ds) args)) m') := by
  have hall := (all_meets hhost hstart n (Format.elements ds) (Format.elements_within ds (List.Subset.refl ds))
    start.stack.toList args (List.prefix_refl _)).ensures (all_ensures { start := n } _ args rfl)
  obtain ⟨r, rest, m', hrun, hended⟩ := hall start (.self ⟨rfl, rfl⟩)
  cases r with
  | ok a => exact ⟨none, m', Act.bind_ok hrun, fun _ => ⟨hended.2.1, hended.1⟩, fun h => absurd rfl h⟩
  | error e => exact ⟨some e, m', Act.bind_ok hrun, by simp, fun _ => hended⟩

end Reading

end ScriptHost
