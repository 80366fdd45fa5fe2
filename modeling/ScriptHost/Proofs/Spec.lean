import ScriptHost.Proofs.Lawful.Stack

/-! # What operations leave on the stack

A specification says what an operation makes of machines with a property, when it succeeds and when
it fails. It holds for every host whose functions do runs, and says nothing about a run that closes
the machine: that drops the whole stack.
-/

namespace ScriptHost

open Machine

variable {ε ε' α β : Type}

namespace Machine

variable {m m' m'' : Machine} {p q : List Nat}

theorem Preserved.closed_le (h : Preserved m m') (hclosed : m.closed = true) : m'.closed = true := by
  cases h with
  | isolated h => exact h.closed.trans hclosed
  | closed h => exact h.closed

/-- A machine that is open, or closed, at both ends of a run is so in between. -/
theorem Runs.closed_between (h : Runs p m m') (h' : Runs q m' m'') (hm : m.Framed)
    (hclosed : m''.closed = m.closed) : m'.closed = m.closed ∧ m''.closed = m'.closed := by
  have hfirst := (h.preserved hm).closed_le
  have hlast := (h'.preserved (h.framed hm)).closed_le
  cases hc : m.closed with
  | true => simp_all
  | false =>
      rw [hc] at hclosed
      cases hc' : m'.closed with
      | false => simp [hclosed]
      | true =>
          rw [hlast hc'] at hclosed
          cases hclosed

/-- What holds of a run that leaves the machine open or closed as it was. A collection counts as its
    cycle and then the turns, and a turn as its start and then a protected call. -/
theorem Runs.induction {P : Machine → Machine → Prop} (h : Runs q m m') (hm : m.Framed)
    (hclosed : m'.closed = m.closed) (refl : ∀ m, P m m)
    (trans : ∀ {q m m' m''}, Isolated m m' → Runs q m' m'' → Isolated m' m'' → P m m' → P m' m'' →
      P m m'')
    (change : ∀ {m m'}, m.Framed → Change m m' → P m m')
    (forget : ∀ m, P m m.forgetDecoration)
    (call : ∀ {m m'} (f : Frame), P (m.enterFrame f) m' → P m m'.leaveFrame)
    (protect : ∀ {m m' handler}, Isolated (m.pushGuard { handler }) m' →
      P (m.pushGuard { handler }) m' → P m m'.popGuard)
    (handle : ∀ {m m' handler raised} (answer), m.Heeds handler →
      Runs [] (m.beginHandling handler raised) m' → Isolated (m.beginHandling handler raised) m' →
      (m.beginHandling handler raised).Framed →
      P (m.beginHandling handler raised) m' → P m (m'.endHandling m.stack.size raised answer))
    (cycle : ∀ {m}, m.closed = false → P m m.cycle.2.2)
    (turned : ∀ m slot, P m (m.turned slot)) : P m m' := by
  induction h with
  | refl m => exact refl m
  | trans h h' ih ih' =>
      obtain ⟨hc, hc'⟩ := h.closed_between h' hm hclosed
      exact trans (h.isolated hm hc) h' (h'.isolated (h.framed hm) hc') (ih hm hc)
        (ih' (h.framed hm) hc')
  | change h => exact change hm h
  | forget m => exact forget m
  | call f hbase hlt h ih => exact call f (ih hlt hclosed)
  | protect handler h ih => exact protect (h.isolated hm hclosed) (ih hm hclosed)
  | @handle m m' handler raised answer hheeds h hbase ih =>
      have hbegun := (Service.begun handler raised hheeds).isolated hm
      have hended := (Service.ended _ raised answer hbase).isolated (h.framed hbegun.framed)
      have hc : m'.closed = (m.beginHandling handler raised).closed :=
        (hended.closed.symm.trans hclosed).trans hbegun.closed.symm
      exact handle answer hheeds h (h.isolated hbegun.framed hc) hbegun.framed (ih hbegun.framed hc)
  | collect hopen h ih =>
      have hcycle := cycle_isolated hm
      have hc := hclosed.trans hcycle.closed.symm
      exact trans hcycle h (h.isolated hcycle.framed hc) (cycle hopen) (ih hcycle.framed hc)
  | close hopen h _ =>
      have hshut := shut_closed hopen
      rw [(h.preserved hshut.framed).closed_le hshut.closed, hopen] at hclosed
      cases hclosed
  | @turn m m' slot h ih =>
      have hturned := turned_isolated slot hm
      have hc := hclosed.trans hturned.closed.symm
      have hprotected := (Runs.protect none h).isolated hturned.framed hc
      exact trans hturned (.protect none h) hprotected (turned m slot)
        (protect (h.isolated hturned.framed hc) (ih hturned.framed hc))

end Machine

namespace Machine

/-! ## Layouts -/

variable {m m' : Machine} {b n : Nat} {s t : List Value} {v : Value}

/-- The stack of a machine whose running frame has a base. -/
structure Laid (b : Nat) (s : List Value) (m : Machine) : Prop where
  base : m.base = b
  stack : m.stack.toList = s

/-- The stack of a machine starts with some values; there may be more above them. -/
structure Over (b : Nat) (s : List Value) (m : Machine) : Prop where
  base : m.base = b
  stack : s <+: m.stack.toList

theorem Laid.size (h : Laid b s m) : m.stack.size = s.length := by
  rw [← h.stack, Array.length_toList]

theorem Laid.top (h : Laid b s m) : m.top = s.length - b := by
  rw [Machine.top, h.size, h.base]

theorem Laid.over (h : Laid b (s ++ t) m) : Over b s m := ⟨h.base, h.stack ▸ List.prefix_append s t⟩

theorem Laid.over_self (h : Laid b s m) : Over b s m := ⟨h.base, h.stack ▸ List.prefix_rfl⟩

theorem Over.below (h : Over b (s ++ t) m) : Over b s m :=
  ⟨h.base, (List.prefix_append s t).trans h.stack⟩

theorem Over.size_le (h : Over b s m) : s.length ≤ m.stack.size := by
  rw [← Array.length_toList]
  exact h.stack.length_le

theorem Laid.push (h : Laid b s m) : Laid b (s ++ [v]) (m.push v) := by
  refine ⟨h.base, ?_⟩
  rw [Machine.push, Array.toList_push, h.stack]

theorem Over.truncate (h : Over b s m) : Laid b s (m.truncate s.length) := by
  refine ⟨h.base, ?_⟩
  rw [Machine.truncate, Array.toList_shrink]
  exact (List.prefix_iff_eq_take.mp h.stack).symm

theorem Over.truncate_eq (h : Over b s m) (hn : n = s.length) : Laid b s (m.truncate n) :=
  hn ▸ h.truncate

theorem Over.setTop (h : Over b s m) (hn : b + n = s.length) : Laid b s (m.setTop n) := by
  have hle := h.size_le
  rw [Machine.setTop, Machine.resize, h.base, hn, if_pos hle]
  exact h.truncate

/-- Values that were put on top may be taken off without harm to those below. -/
theorem Laid.over_pop (h : Laid b (s ++ t) m) (hn : n = t.length) : Over b s (m.pop n) := by
  refine ⟨h.base, ?_⟩
  rw [Machine.pop, Machine.truncate, Array.toList_shrink, List.prefix_take_iff]
  refine ⟨h.over.stack, ?_⟩
  rw [h.size, List.length_append]
  omega

/-- The same where values may lie above them. -/
theorem Over.pop (h : Over b (s ++ [v]) m) : Over b s (m.pop 1) := by
  have hsize := h.size_le
  rw [List.length_append, List.length_singleton] at hsize
  refine ⟨h.base, ?_⟩
  rw [Machine.pop, Machine.truncate, Array.toList_shrink, List.prefix_take_iff]
  exact ⟨h.below.stack, by omega⟩

theorem Laid.pop (h : Laid b (s ++ t) m) (hb : b ≤ s.length) (hn : n = t.length) :
    Laid b s (m.pop n) := by
  refine h.over.truncate_eq ?_
  rw [h.size, h.base, List.length_append]
  omega

theorem Laid.eraseAt (h : Laid b (s ++ v :: t) m) : Laid b (s ++ t) (m.eraseAt s.length) := by
  refine ⟨h.base, ?_⟩
  rw [Machine.eraseAt, Array.toList_eraseIdxIfInBounds, h.stack, List.eraseIdx_append_of_length_le
    (Nat.le_refl _), Nat.sub_self]
  rfl

theorem insertIdx_between (s t : List Value) (v : Value) :
    (s ++ t).insertIdx s.length v = s ++ v :: t := by
  induction s with
  | nil => rfl
  | cons w s ih => rw [List.cons_append, List.length_cons, List.insertIdx_succ_cons, ih]; rfl

theorem Laid.insertAt (h : Laid b (s ++ t) m) : Laid b (s ++ v :: t) (m.insertAt s.length v) := by
  refine ⟨h.base, ?_⟩
  rw [Machine.insertAt, toList_insertIdxIfInBounds, h.stack, insertIdx_between]

theorem Laid.sinkTop (h : Laid b (s ++ t ++ [v]) m) :
    Laid b (s ++ v :: t) (m.sinkTop s.length) := by
  have hback : m.stack.back? = some v := by
    rw [← Array.getLast?_toList, h.stack, List.getLast?_concat]
  refine ⟨?_, ?_⟩
  · unfold Machine.sinkTop
    rw [hback]
    exact h.base
  · unfold Machine.sinkTop
    rw [hback]
    simp only [toList_insertIdxIfInBounds, Array.toList_pop, h.stack, List.dropLast_concat,
      insertIdx_between]

theorem Laid.base_le (h : Laid b s m) (hm : m.Framed) : b ≤ s.length := by
  rw [← h.base, ← h.size]
  exact hm

/-- Indices that name the value below some others. -/
theorem Laid.position_fromTop (h : Laid b (s ++ v :: t) m) (hb : b ≤ s.length)
    (hn : n = t.length + 1) : m.position? (.fromTop n) = some s.length := by
  have hlength : (s ++ v :: t).length = s.length + n := by
    rw [List.length_append, List.length_cons, hn]
  simp only [Machine.position?]
  rw [h.top, h.size, hlength, if_pos (by omega), Nat.add_sub_cancel]

theorem Laid.position_fromBottom (h : Laid b (s ++ v :: t) m) (hb : b ≤ s.length)
    (hn : b + n = s.length + 1) : m.position? (.fromBottom n) = some s.length := by
  have hlength : (s ++ v :: t).length = s.length + (t.length + 1) := by
    rw [List.length_append, List.length_cons]
  simp only [Machine.position?]
  rw [h.base, h.size, hlength, if_pos (by omega), hn, Nat.add_sub_cancel]

theorem Laid.getElem? (h : Laid b (s ++ v :: t) m) : m.stack[s.length]? = some v := by
  rw [← Array.getElem?_toList, h.stack, List.getElem?_append_right (Nat.le_refl _), Nat.sub_self]
  rfl

theorem Laid.value_fromTop (h : Laid b (s ++ v :: t) m) (hb : b ≤ s.length) (hn : n = t.length + 1) :
    m.value (.fromTop n) = v := by
  change ((m.position? (.fromTop n)).bind fun p => m.stack[p]?).getD .nil = v
  rw [h.position_fromTop hb hn, Option.bind_some, h.getElem?, Option.getD_some]

theorem Laid.value_fromBottom (h : Laid b (s ++ v :: t) m) (hb : b ≤ s.length)
    (hn : b + n = s.length + 1) : m.value (.fromBottom n) = v := by
  change ((m.position? (.fromBottom n)).bind fun p => m.stack[p]?).getD .nil = v
  rw [h.position_fromBottom hb hn, Option.bind_some, h.getElem?, Option.getD_some]

/-- A change of something else. -/
theorem Laid.of_eq (h : Laid b s m) (frames : m'.frames = m.frames) (stack : m'.stack = m.stack) :
    Laid b s m' :=
  ⟨by rw [Machine.base, frames]; exact h.base, by rw [stack]; exact h.stack⟩

theorem Over.of_eq (h : Over b s m) (frames : m'.frames = m.frames) (stack : m'.stack = m.stack) :
    Over b s m' :=
  ⟨by rw [Machine.base, frames]; exact h.base, by rw [stack]; exact h.stack⟩

end Machine

namespace Act

variable {x : Act ε α} {f : α → Act ε β} {host : Host} {m m' : Machine}

theorem Lawful.run_ok {a : α} (hx : x.Lawful) (hhost : host.Lawful) (hm : m.Framed)
    (h : x host m = .ok a m') : Runs [] m m' :=
  Op.after_ok h ▸ hx host hhost m hm

theorem Lawful.run_error {e : ε} (hx : x.Lawful) (hhost : host.Lawful) (hm : m.Framed)
    (h : x host m = .error e m') : Runs [] m m' :=
  Op.after_error h ▸ hx host hhost m hm

/-- What an operation came to satisfies `Q`, or `E` if it failed. -/
def Ended (Q : α → Machine → Prop) (E : Machine → Prop) : EStateM.Result ε Machine α → Prop
  | .ok a m => Q a m
  | .error _ m => E m

theorem Ended.imp {Q Q' : α → Machine → Prop} {E E' : Machine → Prop} {r : EStateM.Result ε Machine α}
    (h : Ended Q E r) (hok : ∀ a m, Q a m → Q' a m) (herror : ∀ m, E m → E' m) : Ended Q' E' r := by
  cases r with
  | ok a m => exact hok a m h
  | error e m => exact herror m h

/-- What an operation came to is what its run gave. -/
theorem Ended.self {Q : α → Machine → Prop} {E : Machine → Prop} {r : EStateM.Result ε Machine α}
    (h : Ended Q E r) :
    Ended (fun a m => Q a m ∧ r = .ok a m) (fun m => E m ∧ ∃ e, r = .error e m) r := by
  cases r with
  | ok a m => exact ⟨h, rfl⟩
  | error e m => exact ⟨h, e, rfl⟩

/-- What an operation came to, and then what follows it. -/
theorem Ended.next {Q : α → Machine → Prop} {R : β → Machine → Prop} {E E' : Machine → Prop}
    (h : Ended Q E (x host m)) (hok : ∀ a m', Q a m' → Ended R E' (f a host m')) (herror : ∀ m', E m' → E' m') :
    Ended R E' ((x >>= f) host m) := by
  rw [run_bind]
  cases hx : x host m with
  | ok a m' =>
      rw [hx] at h
      exact hok a m' h
  | error e m' =>
      rw [hx] at h
      exact herror m' h

/-- A sequence is followed operation by operation. -/
theorem Ended.bind {Q : α → Machine → Prop} {R : β → Machine → Prop} {E : Machine → Prop}
    (hx : x.Lawful) (hf : ∀ a, (f a).Lawful) (hhost : host.Lawful) (hm : m.Framed)
    (hclosed : (Op.after ((x >>= f) host) m).closed = m.closed)
    (hfirst : (Op.after (x host) m).closed = m.closed → Ended Q E (x host m))
    (hrest : ∀ a m', m'.Framed → Q a m' → (Op.after (f a host) m').closed = m'.closed →
      Ended R E (f a host m')) : Ended R E ((x >>= f) host m) := by
  unfold Op.after at hclosed
  rw [run_bind] at hclosed ⊢
  cases h : x host m with
  | error e m' =>
      rw [h] at hclosed
      have hended := hfirst (by rw [Op.after_error h]; exact hclosed)
      rw [h] at hended
      exact hended
  | ok a m' =>
      rw [h] at hclosed
      have hrun := hx.run_ok hhost hm h
      obtain ⟨hc, hc'⟩ := hrun.closed_between (hf a host hhost m' (hrun.framed hm)) hm hclosed
      have hended := hfirst (by rw [Op.after_ok h]; exact hc)
      rw [h] at hended
      exact hrest a m' (hrun.framed hm) hended hc'

/-- The same of what an attempt came to. -/
def Tried (Q : α → Machine → Prop) (E : Machine → Prop) : Except ε α → Machine → Prop
  | .ok a => Q a
  | .error _ => E

/-- What a lawful operation makes of machines that satisfy `P` and are not closed meanwhile: `Q` of
    its result and the machine, or `E` of the machine if it fails. -/
structure Spec (P : Machine → Prop) (x : Act ε α) (Q : α → Machine → Prop) (E : Machine → Prop) :
    Prop where
  lawful : x.Lawful
  ok : ∀ {host : Host} {m a m'}, host.Lawful → m.Framed → P m → x host m = .ok a m' →
    m'.closed = m.closed → Q a m'
  error : ∀ {host : Host} {m e m'}, host.Lawful → m.Framed → P m → x host m = .error e m' →
    m'.closed = m.closed → E m'

namespace Spec

variable {P P' : Machine → Prop} {Q Q' : α → Machine → Prop} {R : β → Machine → Prop}
  {E E' : Machine → Prop}

/-- A specification given case by case. -/
theorem of_cases (hx : x.Lawful) (h : ∀ {host : Host} {m}, host.Lawful → m.Framed → P m →
    (Op.after (x host) m).closed = m.closed → Ended Q E (x host m)) : Spec P x Q E := by
  refine ⟨hx, fun hhost hm hp hrun hc => ?_, fun hhost hm hp hrun hc => ?_⟩
  · have hcase := h hhost hm hp (by rw [Op.after_ok hrun]; exact hc)
    rw [hrun] at hcase
    exact hcase
  · have hcase := h hhost hm hp (by rw [Op.after_error hrun]; exact hc)
    rw [hrun] at hcase
    exact hcase

theorem ended (h : Spec P x Q E) (hhost : host.Lawful) (hm : m.Framed) (hp : P m)
    (hc : (Op.after (x host) m).closed = m.closed) : Ended Q E (x host m) := by
  cases hrun : x host m with
  | ok a m' => exact h.ok hhost hm hp hrun (Op.after_ok hrun ▸ hc)
  | error e m' => exact h.error hhost hm hp hrun (Op.after_error hrun ▸ hc)

/-- What follows an operation may be lawful after it only. -/
theorem then_modify {g : Machine → Machine} {Q : Machine → Prop} {R : PUnit → Machine → Prop}
    (h : Spec P x (fun _ => Q) E)
    (hlawful : (x >>= fun _ => modify g).Lawful) (hclosed : ∀ m, (g m).closed = m.closed)
    (hg : ∀ m, Q m → R ⟨⟩ (g m)) : Spec P (x >>= fun _ => modify g) R E := by
  refine .of_cases hlawful fun {host m} hhost hm hp hc => ?_
  unfold Op.after at hc
  rw [run_bind] at hc ⊢
  cases hrun : x host m with
  | ok a m' =>
      rw [hrun] at hc
      exact hg _ (h.ok hhost hm hp hrun ((hclosed m').symm.trans hc))
  | error e m' =>
      rw [hrun] at hc
      exact h.error hhost hm hp hrun hc

/-- An operation that calls no function. -/
theorem lift {x : Op ε α} (hx : x.Lawful) (h : ∀ m, m.Framed → P m → Ended Q E (x m)) :
    Spec P (liftM x : Act ε α) Q E :=
  .of_cases (.lift hx) fun _ hm hp _ => h _ hm hp

theorem pre (h : Spec P x Q E) (hpre : ∀ m, P' m → P m) : Spec P' x Q E :=
  ⟨h.lawful, fun hhost hm hp => h.ok hhost hm (hpre _ hp),
    fun hhost hm hp => h.error hhost hm (hpre _ hp)⟩

theorem post (h : Spec P x Q E) (hok : ∀ a m, Q a m → Q' a m) (herror : ∀ m, E m → E' m) :
    Spec P x Q' E' :=
  ⟨h.lawful, fun hhost hm hp hrun hc => hok _ _ (h.ok hhost hm hp hrun hc),
    fun hhost hm hp hrun hc => herror _ (h.error hhost hm hp hrun hc)⟩

theorem pure {a : α} (h : ∀ m, P m → Q a m) : Spec P (pure a : Act ε α) Q E :=
  ⟨.pure a, fun _ _ hp hrun _ => (by cases hrun; exact h _ hp), fun _ _ _ hrun _ => by cases hrun⟩

theorem throw {e : ε} (h : ∀ m, P m → E m) : Spec P (throw e : Act ε α) Q E :=
  ⟨.throw e, fun _ _ _ hrun _ => (by cases hrun), fun _ _ hp hrun _ => (by cases hrun; exact h _ hp)⟩

theorem modify {g : Machine → Machine} {Q : PUnit → Machine → Prop} (hg : ∀ m, Leads m (g m))
    (h : ∀ m, m.Framed → P m → Q ⟨⟩ (g m)) : Spec P (modify g : Act ε PUnit) Q E :=
  ⟨.modify hg, fun _ hm hp hrun _ => (by cases hrun; exact h _ hm hp), fun _ _ _ hrun _ => by cases hrun⟩

theorem modifyGet {g : Machine → α × Machine} (hg : ∀ m, Leads m (g m).2)
    (h : ∀ m, m.Framed → P m → Q (g m).1 (g m).2) : Spec P (modifyGet g : Act ε α) Q E :=
  ⟨.modifyGet hg, fun _ hm hp hrun _ => (by cases hrun; exact h _ hm hp),
    fun _ _ _ hrun _ => by cases hrun⟩

/-- A sequence is specified operation by operation. -/
theorem bind (hx : Spec P x Q E) (hf : ∀ a, Spec (Q a) (f a) R E) : Spec P (x >>= f) R E := by
  have hlawful := hx.lawful.bind fun a => (hf a).lawful
  refine ⟨hlawful, fun {host m b m'} hhost hm hp hrun hc => ?_,
    fun {host m e m'} hhost hm hp hrun hc => ?_⟩ <;> rw [run_bind] at hrun
  · cases h : x host m with
    | error e m₁ =>
        rw [h] at hrun
        cases hrun
    | ok a m₁ =>
        rw [h] at hrun
        have hfirst := hx.lawful.run_ok hhost hm h
        have hlast := (hf a).lawful.run_ok hhost (hfirst.framed hm) hrun
        obtain ⟨hc₁, hc₂⟩ := hfirst.closed_between hlast hm hc
        exact (hf a).ok hhost (hfirst.framed hm) (hx.ok hhost hm hp h hc₁) hrun hc₂
  · cases h : x host m with
    | error e m₁ =>
        rw [h] at hrun
        cases hrun
        exact hx.error hhost hm hp h hc
    | ok a m₁ =>
        rw [h] at hrun
        have hfirst := hx.lawful.run_ok hhost hm h
        have hlast := (hf a).lawful.run_error hhost (hfirst.framed hm) hrun
        obtain ⟨hc₁, hc₂⟩ := hfirst.closed_between hlast hm hc
        exact (hf a).error hhost (hfirst.framed hm) (hx.ok hhost hm hp h hc₁) hrun hc₂

/-- What follows reading the machine may depend on it. -/
theorem get_bind {f : Machine → Act ε β} (hlawful : (get >>= f : Act ε β).Lawful)
    (hf : ∀ m, m.Framed → P m → Spec (· = m) (f m) R E) : Spec P (get >>= f) R E :=
  ⟨hlawful, fun hhost hm hp hrun hc => (hf _ hm hp).ok hhost hm rfl hrun hc,
    fun hhost hm hp hrun hc => (hf _ hm hp).error hhost hm rfl hrun hc⟩

theorem get : Spec P (get : Act ε Machine) (fun _ => P) E :=
  ⟨.get, fun _ _ hp hrun _ => (by cases hrun; exact hp), fun _ _ _ hrun _ => (by cases hrun)⟩

/-- What does not depend on the machine stays true. -/
theorem and_const (h : Spec P x Q E) (c : Prop) :
    Spec (fun m => P m ∧ c) x (fun a m => Q a m ∧ c) E :=
  ⟨h.lawful, fun hhost hm hp hrun hc => ⟨h.ok hhost hm hp.1 hrun hc, hp.2⟩,
    fun hhost hm hp hrun hc => h.error hhost hm hp.1 hrun hc⟩

theorem exists_pre {ι : Type} [Nonempty ι] {P : ι → Machine → Prop} (h : ∀ i, Spec (P i) x Q E) :
    Spec (fun m => ∃ i, P i m) x Q E :=
  ⟨(h (Classical.arbitrary ι)).lawful,
    fun hhost hm hp hrun hc => hp.elim fun i hp => (h i).ok hhost hm hp hrun hc,
    fun hhost hm hp hrun hc => hp.elim fun i hp => (h i).error hhost hm hp hrun hc⟩

theorem ite {c : Prop} [Decidable c] {x y : Act ε α} (hx : Spec P x Q E) (hy : Spec P y Q E) :
    Spec P (if c then x else y) Q E := by
  split
  · exact hx
  · exact hy

/-- The failure of an attempt is a result. -/
theorem attempt (hx : Spec P x Q E) : Spec P (attempt x : Act ε' (Except ε α)) (Tried Q E) E' := by
  refine ⟨.attempt hx.lawful, fun {host m r m'} hhost hm hp hrun hc => ?_,
    fun {host m e m'} _ _ _ hrun _ => ?_⟩ <;> rw [run_attempt] at hrun
  · cases h : x host m with
    | ok a m₁ =>
        rw [h] at hrun
        cases hrun
        exact hx.ok hhost hm hp h hc
    | error e m₁ =>
        rw [h] at hrun
        cases hrun
        exact hx.error hhost hm hp h hc
  · cases h : x host m <;> rw [h] at hrun <;> cases hrun

theorem mapError {g : ε → ε'} (hx : Spec P x Q E) : Spec P (mapError g x) Q E := by
  refine ⟨.mapError hx.lawful, fun {host m a m'} hhost hm hp hrun hc => ?_,
    fun {host m e m'} hhost hm hp hrun hc => ?_⟩ <;> rw [run_mapError] at hrun
  · cases h : x host m with
    | ok a m₁ =>
        rw [h] at hrun
        cases hrun
        exact hx.ok hhost hm hp h hc
    | error e m₁ =>
        rw [h] at hrun
        cases hrun
  · cases h : x host m with
    | ok a m₁ =>
        rw [h] at hrun
        cases hrun
    | error e m₁ =>
        rw [h] at hrun
        cases hrun
        exact hx.error hhost hm hp h hc

end Spec

/-! ## Moving values -/

variable {b : Nat} {s t : List Value} {v : Value} {i : StackIndex} {E : Machine → Prop}

theorem remove_spec (hi : ∀ m, Laid b (s ++ v :: t) m → m.position? i = some s.length) :
    Spec (Laid b (s ++ v :: t)) (liftM (Op.remove i) : Act ScriptError Unit) (fun _ => Laid b (s ++ t))
      E := by
  refine .lift (Op.remove_lawful i) fun m _ hl => ?_
  have hrun : Op.remove i m = .ok ⟨⟩ (m.eraseAt s.length) := by
    rw [Op.remove, Op.run_bind, Op.position_eq, hi m hl]
    rfl
  rw [hrun]
  exact hl.eraseAt

theorem insert_spec (hi : ∀ m, Laid b (s ++ t ++ [v]) m → m.position? i = some s.length) :
    Spec (Laid b (s ++ t ++ [v])) (liftM (Op.insert i) : Act ScriptError Unit)
      (fun _ => Laid b (s ++ v :: t)) E := by
  refine .lift (Op.insert_lawful i) fun m _ hl => ?_
  have hrun : Op.insert i m = .ok ⟨⟩ (m.sinkTop s.length) := by
    rw [Op.insert, Op.run_bind, Op.position_eq, hi m hl]
    rfl
  rw [hrun]
  exact hl.sinkTop

end Act

end ScriptHost
