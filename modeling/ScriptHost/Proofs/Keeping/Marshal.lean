import ScriptHost.Proofs.Keeping.Class
import ScriptHost.Proofs.Format
import ScriptHost.Proofs.Marshal

/-! # Marshaling keeps the class library

Reading a format stores in tables that it made itself. None of them is a table of the library: those were there
before.
-/

namespace ScriptHost

open Machine

variable {l : Library}

/-- A store in a table that is none of the library. -/
theorem Machine.Equipped.setEntry_other {m : Machine} {slot : Nat} (h : m.Equipped l) (hslot : slot ∉ l.tables)
    (key : Key) (v : Value) : (m.setEntry slot key v).Equipped l := by
  have hchange : m.heap.Change (m.setEntry slot key v).heap := .entry slot key v
  refine h.of_functions (hchange.sound h.sound) h.strings (.refl _) rfl rfl rfl rfl (fun t ht => ?_)
    (fun hid => hchange.identity h.sound hid) fun {s u'} hu => .inr ⟨u', hu, rfl⟩
  rw [Machine.setEntry, Heap.modifyTable, Arena.get?_modify, if_neg]
  rintro rfl
  exact hslot ht

namespace Op

theorem rawStore_keeps {slot : Nat} (hslot : slot ∉ l.tables) (key v : Value) : (rawStore slot key v).Keeps l :=
  .bind .get fun m => by
    split
    · exact .fail _
    · exact .modify fun _ h => h.setEntry_other hslot _ _
    · exact .fail _

end Op

namespace Reading

variable {α β : Type} {P P' : Machine → Prop} {Q Q' : α → Machine → Prop} {R : β → Machine → Prop}
  {E : Machine → Prop} {x : Reading α} {f : α → Reading β}

/-- Reading leaves machines equipped, whatever the arguments are. -/
def Keeps (l : Library) (x : Reading α) : Prop := ∀ args, Act.Keeps l (StateT.run (ExceptT.run x) args)

/-- What reading makes of equipped machines, beside leaving them equipped. -/
def Maintains (l : Library) (P : Machine → Prop) (x : Reading α) (Q : α → Machine → Prop) (E : Machine → Prop) :
    Prop :=
  ∀ args, Act.Maintains l P (StateT.run (ExceptT.run x) args) (fun r => Act.Tried Q E r.1) E

namespace Keeps

theorem pure (a : α) : Keeps l (pure a : Reading α) := fun _ => Act.KeepsFrom.pure _

theorem throw (e : FormatError) : Keeps l (throw e : Reading α) := fun _ => Act.KeepsFrom.pure _

theorem bind (hx : Keeps l x) (hf : ∀ a, Keeps l (f a)) : Keeps l (x >>= f) := by
  refine fun args => .bind (hx args) fun result => ?_
  obtain ⟨r, rest⟩ := result
  cases r with
  | ok a => exact hf a rest
  | error e => exact .pure _

theorem perform {x : Act Empty α} (hx : Act.Keeps l x) : Keeps l (perform x) :=
  fun _ => .bind (.bind hx fun _ => .pure _) fun _ => .pure _

theorem change {g : Machine → Machine} (hg : ∀ m, Leads m (g m))
    (h : ∀ m : Machine, m.Equipped l → (g m).Equipped l) : Keeps l (change g) := perform (.modify hg h)

theorem machine : Keeps l machine := perform .get

theorem orFail {e : FormatError} {x : Act ScriptError α} (hx : Act.Keeps l x) : Keeps l (orFail e x) :=
  bind (perform (.attempt hx)) fun r => by
    cases r with
    | ok a => exact pure a
    | error _ => exact throw e

theorem ite {c : Prop} [Decidable c] {x y : Reading α} (hx : Keeps l x) (hy : Keeps l y) :
    Keeps l (if c then x else y) := by
  split
  · exact hx
  · exact hy

end Keeps

namespace Maintains

theorem of_spec (hspec : Spec P x Q E) (hx : Keeps l x) : Maintains l P x Q E :=
  fun args => .of_spec (hspec args) (.of_keeps (hx args))

theorem bind (hx : Maintains l P x Q E) (hf : ∀ a, Maintains l (Q a) (f a) R E) : Maintains l P (x >>= f) R E := by
  refine fun args => .bind (hx args) fun result => ?_
  obtain ⟨r, rest⟩ := result
  cases r with
  | ok a => exact hf a rest
  | error e => exact .pure fun _ => id

theorem pre (h : Maintains l P x Q E) (hpre : ∀ m, P' m → P m) : Maintains l P' x Q E :=
  fun args => (h args).pre hpre

theorem post {E' : Machine → Prop} (h : Maintains l P x Q E) (hok : ∀ a m, Q a m → Q' a m)
    (herror : ∀ m, E m → E' m) : Maintains l P x Q' E' :=
  fun args => (h args).post (fun r m hr => by
    obtain ⟨r, rest⟩ := r
    cases r with
    | ok a => exact hok a m hr
    | error e => exact herror m hr) herror

theorem pure {a : α} (h : ∀ m, P m → Q a m) : Maintains l P (pure a : Reading α) Q E :=
  fun _ => Act.Maintains.pure h

theorem perform {x : Act Empty α} (hx : Act.Maintains l P x Q E) : Maintains l P (perform x) Q E :=
  fun _ => .bind (.bind hx fun _ => .pure fun _ => id) fun _ => .pure fun _ => id

theorem throw {e : FormatError} (h : ∀ m, P m → E m) : Maintains l P (throw e : Reading α) Q E :=
  fun _ => Act.Maintains.pure h

theorem orFail {e : FormatError} {x : Act ScriptError α} (hx : Act.Maintains l P x Q E) :
    Maintains l P (orFail e x) Q E :=
  bind (perform hx.attempt) fun r => by
    cases r with
    | ok a => exact pure fun _ => id
    | error _ => exact throw fun _ => id

theorem exists_pre {ι : Type} [Nonempty ι] {P : ι → Machine → Prop} (h : ∀ i, Maintains l (P i) x Q E) :
    Maintains l (fun m => ∃ i, P i m) x Q E := fun args => .exists_pre fun i => h i args

/-- What is known of every machine that satisfies `P` may be taken as given. -/
theorem and_pre {c : Prop} (hl : x.Lawful) (h : c → Maintains l P x Q E) : Maintains l (fun m => c ∧ P m) x Q E :=
  fun args => ⟨hl args, fun hhost hm he ⟨hc, hp⟩ => (h hc args).ends hhost hm he hp⟩

/-- What follows reading the machine may depend on it. -/
theorem machine_bind {f : Machine → Reading β} (hlawful : (Reading.machine >>= f).Lawful)
    (hf : ∀ m, m.Framed → P m → Maintains l (· = m) (f m) R E) : Maintains l P (Reading.machine >>= f) R E :=
  fun args => ⟨hlawful args, fun hhost hm he hp => (hf _ hm hp args).ends hhost hm he rfl⟩

end Maintains

/-! ## Elements that push a value -/

theorem nextArgument_keeps : Keeps l nextArgument := by
  intro args
  cases args with
  | nil => exact Act.KeepsFrom.pure _
  | cons a rest => exact Act.KeepsFrom.pure _

theorem condition_keeps : Keeps l condition :=
  .bind nextArgument_keeps fun a => by
    cases a with
    | bool b => exact .pure _
    | int | number | text | function | pointer | index => exact .throw _

theorem emit_keeps {mode : Mode} {x : Act Empty Unit} (hx : Act.Keeps l x) : Keeps l (emit mode x) :=
  .ite (.pure _) (.perform hx)

theorem push_keeps {mode : Mode} (v : Value) : Keeps l (emit mode (modify (·.push v))) :=
  emit_keeps (.modify (fun _ => leads_push) fun _ h => h.push)

theorem slot_keeps (mode : Mode) (relative : Bool) : Keeps l (slot mode relative) := by
  refine .bind nextArgument_keeps fun a => .bind (α := StackIndex) ?_ fun i => .bind .machine fun m => ?_
  · cases argumentIndex a with
    | ok i => exact .pure _
    | error e => exact .throw _
  · cases resolveIndex m (if relative then m.top + 1 else mode.start) i with
    | none => exact .throw _
    | some i =>
        have hemit : ∀ {γ : Type} (_ : γ), Keeps l (emit mode (modify (·.pushAt i))) :=
          fun _ => emit_keeps (.modify (fun _ => leads_pushAt) fun _ h => h.pushAt)
        refine .ite ?_ (hemit ())
        cases m.value i with
        | nil => exact .bind (.throw _) hemit
        | float d => exact .ite (.bind (.throw _) hemit) (hemit ())
        | bool | int | string | light | object | foreign => exact hemit ()

theorem light_keeps (mode : Mode) (nonNull : Bool) : Keeps l (light mode nonNull) := by
  refine .bind nextArgument_keeps fun a => ?_
  cases a with
  | pointer a =>
      exact .ite (.pure _) (.ite (.ite (.throw _) (.ite (.throw _)
        (.change (fun _ => leads_push) fun _ h => h.push)))
        (.orFail (.lift (Op.pushLight_lawful a) (Op.pushLight_keeps a))))
  | int | number | bool | text | function | index => exact .throw _

theorem global_keeps (mode : Mode) : Keeps l (global mode) := by
  refine .bind nextArgument_keeps fun a => ?_
  cases a with
  | text name =>
      exact .ite (.pure _) (.bind (.orFail (Act.getGlobal_keeps name)) fun _ => .bind .machine fun _ =>
        .ite (.bind (.change (fun _ => leads_pop) fun _ h => h.pop) fun _ => .throw _) (.pure _))
  | int | number | bool | function | pointer | index => exact .throw _

theorem number_keeps (mode : Mode) : Keeps l (scalar mode .number) := by
  have hpush : ∀ d : Double, Keeps l (do
      if mode.asKey && d.isNaN then throw .nanKey
      emit mode (modify (·.push (.ofDouble d))) : Reading Unit) :=
    fun d => .ite (.bind (.throw _) fun _ => push_keeps _) (push_keeps _)
  refine .bind nextArgument_keeps fun a => ?_
  cases a with
  | number d => exact .bind (.pure _) hpush
  | int i => exact .bind (.pure _) hpush
  | bool | text | function | pointer | index => exact .bind (.throw _) hpush

theorem scalar_keeps (mode : Mode) (d : Directive) : Keeps l (scalar mode d) := by
  cases d with
  | slotFromStart => exact slot_keeps mode false
  | slotFromTop => exact slot_keeps mode true
  | boolean => exact .bind condition_keeps fun _ => push_keeps _
  | constTrue | constFalse => exact push_keeps _
  | function =>
      refine .bind nextArgument_keeps fun a => ?_
      cases a with
      | function code => exact emit_keeps (Act.pushNative_keeps code .host)
      | int | number | bool | text | pointer | index => exact .throw _
  | integer =>
      refine .bind nextArgument_keeps fun a => ?_
      cases a with
      | int i => exact emit_keeps (.modify (fun _ => leads_pushInt) fun _ h => h.pushInt)
      | number | bool | text | function | pointer | index => exact .throw _
  | number => exact number_keeps mode
  | text =>
      refine .bind nextArgument_keeps fun a => ?_
      cases a with
      | text t => exact emit_keeps (.modify (fun _ => leads_pushText) fun _ h => h.pushText)
      | int | number | bool | function | pointer | index => exact .throw _
  | light => exact light_keeps mode false
  | lightNonNull => exact light_keeps mode true
  | nil => exact .ite (.bind (.throw _) fun _ => push_keeps _) (push_keeps _)
  | global => exact global_keeps mode
  | openTable | closeTable | condition | key | unknown => exact .throw _

/-! ## Elements -/

variable {b : Nat} {s : List Value} {mode : Mode} {directives : List Directive}

/-- On top lies a table that is none of the library. -/
def OnOwn (l : Library) (b : Nat) (s : List Value) : Prop :=
  ∃ below slot, s = below ++ [.table slot] ∧ slot ∉ l.tables ∧ b ≤ below.length

/-- A new table is none of the library. -/
theorem newTable_maintains (s : List Value) (E : Machine → Prop) :
    Act.Maintains l (Laid b s) (Act.newTable : Act Empty Unit)
      (fun _ m => ∃ slot, slot ∉ l.tables ∧ Laid b (s ++ [.table slot]) m) E := by
  refine .bind (.of_spec (Act.collectIfDue_spec s E) (.of_keeps Act.collectIfDue_keeps)) fun _ =>
    .modify (fun _ => (leads_heap .newTable).trans leads_push) fun m _ h hl => ?_
  have halloc := Heap.allocates_newTable h.sound
  have hl' : Laid b s { m with heap := m.heap.newTable.2 } := hl.of_eq rfl rfl
  refine ⟨(h.allocates halloc).push, m.heap.newTable.1, fun hin => ?_, hl'.push⟩
  exact h.present _ hin (Option.map_eq_none_iff.mp halloc.fresh)

/-- What follows an element that emits. -/
theorem Maintains.of_emitted {α : Type} {x : Reading α} {Q : α → Machine → Prop} {E : Machine → Prop}
    (hx : x.Lawful) (hsuppressed : mode.suppressed = true → Maintains l (Laid b s) x Q E)
    (hpushed : mode.suppressed = false → ∀ v, Maintains l (Laid b (s ++ [v])) x Q E) :
    Maintains l (Emitted mode b s) x Q E := by
  refine fun args => ⟨hx args, fun hhost hm he hp => ?_⟩
  rcases hp with ⟨hmode, hl⟩ | ⟨hmode, v, hl⟩
  · exact (hsuppressed hmode args).ends hhost hm he hl
  · exact (hpushed hmode v args).ends hhost hm he hl

/-- A pair goes to the table that lies below it. -/
theorem storePair_maintains {v w : Value} (hown : OnOwn l b s) :
    Maintains l (Laid b (s ++ [v] ++ [w])) (orFail .nullKey (liftM (Op.rawSet (.fromTop 3))))
      (fun _ => Laid b s) (Over b s) := by
  obtain ⟨below, slot, rfl, hslot, hb⟩ := hown
  have hb' : b ≤ (below ++ [Value.table slot]).length := by
    rw [List.length_append]
    omega
  refine .orFail (.of_spec (.lift (Op.rawSet_lawful _) fun m _ hl => Op.rawSet_meets (v := v) (w := w) _ hb' m ?_)
    (.lift (Op.rawSet_lawful _) fun m _ he hl => ?_))
  · rwa [List.append_assoc] at hl
  · have hstore : (Op.rawStore slot v w >>= fun _ => modify (·.pop 2) : Op ScriptError Unit).Keeps l :=
      .bind (Op.rawStore_keeps hslot v w) fun _ => .modify fun _ h => h.pop
    have hkept := hstore m he
    unfold Op.after at hkept ⊢
    rwa [Op.rawSet_below hl hb]

/-- A value is appended to the table below it. -/
theorem append_maintains {v : Value} {n : Nat} (hown : OnOwn l b s) (hn : b + n = s.length) :
    Maintains l (Laid b (s ++ [v])) (orFail .unclosedTable (liftM (Op.append (.fromBottom n))))
      (fun _ => Laid b s) (Over b s) := by
  obtain ⟨below, slot, rfl, hslot, hb⟩ := hown
  rw [List.length_append, List.length_singleton] at hn
  have hb' : b ≤ (below ++ [Value.table slot]).length := by
    rw [List.length_append]
    omega
  refine .orFail (.of_spec (.lift (Op.append_lawful _) fun m _ => Op.append_meets _ hb' m)
    (.lift (Op.append_lawful _) fun m _ he hl => ?_))
  rw [Op.after_ok (Op.append_eq hl hb hn)]
  exact (he.setEntry_other hslot _ _).pop

/-- A pair goes to a table that reading made, unless it is suppressed. -/
theorem pair_maintains {key value : Element} (hb : b ≤ s.length) (hown : mode.suppressed = false → OnOwn l b s)
    (hkey : Maintains l (Laid b s) (element { mode with asKey := true } key) (fun _ => Emitted mode b s) (Over b s))
    (hvalue : ∀ t : List Value, b ≤ t.length → Maintains l (Laid b t) (element { mode with asKey := false } value)
      (fun _ => Emitted mode b t) (Over b t)) :
    Maintains l (Laid b s) (element mode (.pair key value)) (fun _ => Laid b s) (Over b s) := by
  have hstoreLawful : Lawful (if !mode.suppressed then orFail .nullKey (liftM (Op.rawSet (.fromTop 3)))
      else pure () : Reading Unit) := .ite (.orFail (.lift (Op.rawSet_lawful _))) (.pure _)
  rw [element]
  refine .bind hkey fun _ => .of_emitted (.bind (element_lawful _ value) fun _ => hstoreLawful) (fun h => ?_)
    fun h v => ?_
  · refine .bind (hvalue s hb) fun _ => ?_
    simp only [h, Bool.not_true, Bool.false_eq_true, if_false]
    exact .pure fun m hm => (hm.resolve_right fun hopen => by simp_all).2
  · have hb' : b ≤ (s ++ [v]).length := by
      rw [List.length_append]
      omega
    refine .bind ((hvalue _ hb').post (fun _ _ => id) fun _ h => h.below) fun _ =>
      .of_emitted hstoreLawful (fun hclosed => ?_) fun _ w => ?_
    · simp [h] at hclosed
    · simp only [h, Bool.not_false, if_true]
      exact storePair_maintains (hown h)

mutual
/-- A pair is read above a table that reading made, unless it is suppressed. -/
theorem element_maintains (mode : Mode) (e : Element) (s : List Value) {inside : Bool} (he : e.Within directives inside)
    (hb : b ≤ s.length) (hown : inside = true → mode.suppressed = false → OnOwn l b s) :
    Maintains l (Laid b s) (element mode e) (fun _ => Left mode e b s) (Over b s) := by
  cases e with
  | scalar d =>
      rw [element]
      exact .of_spec ((scalar_spec mode d s).post fun _ _ => left_of_emitted) (scalar_keeps mode d)
  | table es =>
      rw [element]
      cases he with
      | table hes =>
          have hitems : ∀ t, b ≤ t.length → (mode.suppressed = false → OnOwn l b t) → Maintains l (Laid b t) (do
              items { mode with asKey := false } (.fromBottom (← machine).top) es : Reading Unit)
              (fun _ => Laid b t) (Over b t) := by
            intro t ht hown
            refine .machine_bind (.bind .machine fun _ => items_lawful _ _ es) fun m _ hl => ?_
            have htop := hl.top
            exact (items_maintains { mode with asKey := false } m.top es t hes ht (by omega) hown).pre
              fun _ heq => heq ▸ hl
          rcases Bool.eq_false_or_eq_true mode.suppressed with hmode | hmode
          · rw [show emit mode Act.newTable = pure () from if_pos hmode]
            refine .bind (Q := fun _ => Laid b s) (.pure fun _ => id) fun _ =>
              (hitems s hb fun hopen => by simp [hmode] at hopen).post (fun _ _ hl => ?_) fun _ => id
            exact .inl ⟨fun _ => hmode, hl⟩
          · rw [show emit mode Act.newTable = perform Act.newTable from if_neg (by simp [hmode])]
            refine .bind (.perform (newTable_maintains s _)) fun _ => .exists_pre fun slot =>
              .and_pre (.bind .machine fun _ => items_lawful _ _ es) fun hslot => ?_
            have hb' : b ≤ (s ++ [Value.table slot]).length := by
              rw [List.length_append]
              omega
            exact (hitems _ hb' fun _ => ⟨s, slot, rfl, hslot, hb⟩).post (fun _ _ hl => .inr ⟨hmode, _, hl⟩)
              fun _ h => h.below
  | condition e =>
      rw [element]
      cases he with
      | condition he =>
          refine .bind (.of_spec (condition_spec fun _ hl => hl.over_self) condition_keeps) fun _ =>
            (element_maintains _ e s he hb fun hin hopen =>
              hown hin (Bool.or_eq_false_iff.mp hopen).1).post (fun _ m hleft => ?_) fun _ => id
          rcases hleft with ⟨-, hl⟩ | ⟨hopen, hp⟩
          · exact .inl ⟨fun h => (by cases h), hl⟩
          · exact .inr ⟨(Bool.or_eq_false_iff.mp hopen).1, hp⟩
  | pair key value =>
      cases he with
      | pair hkey hvalue hkeyWithin hvalueWithin =>
          have hout : ∀ {t : List Value}, false = true → mode.suppressed = false → OnOwn l b t :=
            fun h => by cases h
          have hreadKey := (element_maintains { mode with asKey := true } key s hkeyWithin hb hout).post
            (fun _ _ => emitted_of_left hkey) fun _ => id
          have hreadValue := fun t ht => (element_maintains { mode with asKey := false } value t hvalueWithin ht
            hout).post (fun _ _ => emitted_of_left hvalue) fun _ => id
          exact (pair_maintains hb (hown rfl) hreadKey hreadValue).post
            (fun _ _ hl => .inl ⟨fun h => (by cases h), hl⟩) fun _ => id
  | bad e =>
      rw [element]
      exact .throw fun _ hl => hl.over_self
termination_by sizeOf e

theorem items_maintains (mode : Mode) (n : Nat) (es : List Element) (s : List Value)
    (hes : ∀ e ∈ es, e.Within directives true) (hb : b ≤ s.length) (hn : b + n = s.length)
    (hown : mode.suppressed = false → OnOwn l b s) :
    Maintains l (Laid b s) (items mode (.fromBottom n) es) (fun _ => Laid b s) (Over b s) := by
  cases es with
  | nil =>
      rw [items]
      exact .pure fun _ => id
  | cons e es =>
      rw [items]
      have hrest := items_maintains mode n es s (fun e he => hes e (List.mem_cons_of_mem _ he)) hb hn hown
      refine .machine_bind (items_lawful mode _ (e :: es)) fun m _ hm => ?_
      refine .bind ((element_maintains mode e s (hes e List.mem_cons_self) hb fun _ => hown).pre
        fun _ h => h ▸ hm) fun _ => ?_
      refine .machine_bind (.bind .machine fun _ => .ite (.bind (.orFail (.lift (Op.append_lawful _)))
        fun _ => items_lawful _ _ _) (items_lawful _ _ _)) fun m' _ hleft => ?_
      have htop := hm.top
      rcases hleft with ⟨-, hl⟩ | ⟨hopen, v, hl⟩
      · rw [if_neg (by rw [htop, hl.top]; omega)]
        exact hrest.pre fun _ h => h ▸ hl
      · have htop' := hl.top
        rw [List.length_append, List.length_singleton] at htop'
        rw [if_pos (by omega)]
        exact .bind (.pre (append_maintains (hown hopen) hn) fun _ h => h ▸ hl) fun _ => hrest
termination_by sizeOf es
end

theorem all_maintains (mode : Mode) (es : List Element) (s : List Value)
    (hes : ∀ e ∈ es, e.Within directives false) (hb : b ≤ s.length) :
    Maintains l (Laid b s) (all mode es) (fun _ m => ∃ t, Laid b (s ++ t) m) (Over b s) := by
  induction es generalizing s with
  | nil => exact .pure fun _ hl => ⟨[], by rw [List.append_nil]; exact hl⟩
  | cons e es ih =>
      have hrest := fun t => ih (s ++ t) (fun e he => hes e (List.mem_cons_of_mem _ he))
        (by rw [List.length_append]; omega)
      refine .bind (Q := fun _ m => ∃ t, Laid b (s ++ t) m) ((element_maintains mode e s
        (hes e List.mem_cons_self) hb fun h => (by cases h)).post (fun _ m hleft => ?_) fun _ => id) fun _ =>
          .exists_pre fun t => ?_
      · rcases hleft with ⟨-, hl⟩ | ⟨-, v, hl⟩
        · exact ⟨[], by rw [List.append_nil]; exact hl⟩
        · exact ⟨[v], hl⟩
      · refine (hrest t).post (fun _ m ⟨t', hl⟩ => ?_) fun _ h => h.below
        exact ⟨t ++ t', by rw [← List.append_assoc]; exact hl⟩

/-- The stores of reading a format concern tables that reading made. -/
theorem format_keeps (start : Nat) (ds : List Directive) (args : List Argument) :
    Act.Keeps l (format start ds args) := by
  refine ⟨format_lawful start ds args, fun {host m} hhost hm h _ => ?_⟩
  have hall := all_maintains (l := l) (b := m.base) { start } _ m.stack.toList
    (Format.elements_within ds (List.Subset.refl ds)) (by rw [Array.length_toList]; exact hm)
  have hends : Act.KeepsFrom l (Laid m.base m.stack.toList) (format start ds args) := by
    refine .then_keeps (hall args).keeps fun result => ?_
    obtain ⟨r, rest⟩ := result
    cases r with
    | ok _ => exact .pure _
    | error _ => exact .pure _
  exact hends.keeps hhost hm h ⟨rfl, rfl⟩

end Reading

namespace Act

/-! ## Calls with marshaled arguments -/

theorem callMarshaled_keeps (count : Nat) (wanted : Int) (ds : List Directive) (args : List Argument) :
    Keeps l (callMarshaled count wanted ds args .unguarded) := by
  have hsettle : ∀ (below : Nat) (outcome : Except ScriptError Unit), Keeps l (settle below outcome) := by
    intro below outcome
    cases outcome with
    | ok _ => exact .bind .get fun _ => .pure _
    | error e => exact .bind (.modify (fun _ => leads_setTop) fun _ h => h.setTop) fun _ => .throw e
  have hcall : ∀ (top : Nat) (problem : Option FormatError),
      Keeps l (callFormatted top count wanted .unguarded problem) := by
    intro top problem
    refine .bind .get fun m => ?_
    cases problem with
    | some e => exact hsettle _ _
    | none => exact .bind (.attempt (call_keeps _ _)) fun _ => hsettle _ _
  have hread : ∀ top : Nat, Keeps l (do
      let problem ← safely (Reading.format (top - count) ds args)
      callFormatted top count wanted .unguarded problem : Act ScriptError Nat) :=
    fun top => .bind (.mapError (Reading.format_keeps _ _ _)) fun problem => hcall top problem
  exact .bind .get fun m => .ite (.bind (.lift (.fail _) (.fail _)) fun _ => hread m.top) (hread m.top)

/-- Making an instance, or failing to, leaves a machine equipped. -/
theorem newInstance_keeps (name : String) (ds : List Directive) (args : List Argument) :
    Keeps l (newInstance name ds args) :=
  .bind (pushClassFunction_keeps (by decide)) fun _ =>
    .bind (.modify (fun _ => leads_pushText) fun _ h => h.pushText) fun _ =>
      .bind (callMarshaled_keeps _ _ _ _) fun _ => .pure _

end Act

end ScriptHost
