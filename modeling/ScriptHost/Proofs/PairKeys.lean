import ScriptHost.Proofs.Absence
import ScriptHost.Proofs.KeyIdentity
import ScriptHost.Proofs.Position

/-! # Keys of pairs

A key reads as the value that its element would push elsewhere. Nil and NaN are refused, mostly before
anything is pushed; the table below is left alone then. Any other key is stored under with its value.
-/

namespace ScriptHost

open Machine

/-- The error that a value is refused with as a key. -/
def Value.refusal? : Value → Option FormatError
  | .nil => some .nullKey
  | .float d => if d.isNaN then some .nanKey else none
  | .bool _ | .int _ | .string _ | .light _ | .object _ | .foreign _ => none

theorem Value.refusal?_ofDouble (d : Double) :
    (Value.ofDouble d).refusal? = if d.isNaN then some .nanKey else none := by
  rw [Value.ofDouble, Value.refusal?, Double.isNaN_canonical]

theorem Value.refusal?_eq_none_iff {v : Value} : v.refusal? = none ↔ Key.ofValue? v ≠ none := by
  cases v with
  | float d =>
      rw [refusal?, Key.ofValue?]
      split
      · simp
      · split <;> simp
  | nil | bool | int | string | light | object | foreign => simp [refusal?, Key.ofValue?]

theorem Value.refusal?_eq_null_iff {v : Value} : v.refusal? = some .nullKey ↔ v = .nil := by
  cases v with
  | float d =>
      rw [refusal?]
      split <;> simp
  | nil | bool | int | string | light | object | foreign => simp [refusal?]

theorem Value.key?_of_refusal? {v : Value} {error : FormatError} (h : v.refusal? = some error)
    (heap : Heap Native) : heap.key? v = none := by
  cases v with
  | nil => rfl
  | float d =>
      rw [refusal?] at h
      split at h
      · rename_i hnan
        exact if_pos hnan
      · cases h
  | bool | int | string | light | object | foreign => cases h

namespace Reading

variable {host : Host} {args rest : List Argument} {m m' : Machine} {mode : Mode} {relative : Bool}
  {a : Argument} {i j : StackIndex} {error : FormatError}

theorem emit_yields (hopen : mode.suppressed = false) (g : Machine → Machine) :
    Yields (emit mode (modify g)) host args m () args (g m) := by
  rw [emit, if_neg (by simp [hopen])]
  exact .perform rfl

/-! ## Slots -/

/-- The position that a slot is counted back from. -/
def Mode.origin (mode : Mode) (relative : Bool) (m : Machine) : Nat :=
  if relative then m.top + 1 else mode.start

theorem slot_misnamed (hi : argumentIndex a = .error error) :
    Fails (slot mode relative) host (a :: rest) m error rest m := by
  refine Yields.nextArgument.bind_fails ?_
  rw [hi]
  exact Fails.bind .throw

theorem slot_missing (hi : argumentIndex a = .ok i) (hj : resolveIndex m (mode.origin relative m) i = none) :
    Fails (slot mode relative) host (a :: rest) m .badIndex rest m := by
  refine Yields.nextArgument.bind_fails ?_
  rw [hi]
  refine (Yields.pure i).bind_fails (Yields.machine.bind_fails ?_)
  rw [Mode.origin] at hj
  rw [hj]
  exact .throw

/-- A slot is looked up before its value is refused as a key. -/
theorem slot_refused (hi : argumentIndex a = .ok i) (hj : resolveIndex m (mode.origin relative m) i = some j)
    (hkey : mode.asKey = true) (hvalue : (m.value j).refusal? = some error) :
    Fails (slot mode relative) host (a :: rest) m error rest m := by
  refine Yields.nextArgument.bind_fails ?_
  rw [hi]
  refine (Yields.pure i).bind_fails (Yields.machine.bind_fails ?_)
  rw [Mode.origin] at hj
  rw [hj]
  dsimp only
  rw [if_pos hkey]
  cases hv : m.value j with
  | nil =>
      rw [hv] at hvalue
      cases hvalue
      exact Fails.bind .throw
  | float d =>
      rw [hv, Value.refusal?] at hvalue
      by_cases hnan : d.isNaN = true
      · rw [if_pos hnan] at hvalue
        cases hvalue
        dsimp only
        rw [if_pos hnan]
        exact Fails.bind .throw
      · rw [if_neg hnan] at hvalue
        cases hvalue
  | bool | int | string | light | object | foreign =>
      rw [hv] at hvalue
      cases hvalue

theorem slot_yields (hi : argumentIndex a = .ok i) (hj : resolveIndex m (mode.origin relative m) i = some j)
    (hopen : mode.suppressed = false) (hkey : mode.asKey = true → (m.value j).refusal? = none) :
    Yields (slot mode relative) host (a :: rest) m () rest (m.pushAt j) := by
  have hemit : Yields (emit mode (modify (·.pushAt j))) host rest m () rest (m.pushAt j) := emit_yields hopen _
  refine Yields.nextArgument.bind ?_
  rw [hi]
  refine (Yields.pure i).bind (Yields.machine.bind ?_)
  rw [Mode.origin] at hj
  rw [hj]
  dsimp only
  by_cases hk : mode.asKey = true
  · rw [if_pos hk]
    have hvalue := hkey hk
    cases hv : m.value j with
    | nil =>
        rw [hv] at hvalue
        cases hvalue
    | float d =>
        have hnan : ¬ d.isNaN = true := fun hnan => by
          rw [hv, Value.refusal?, if_pos hnan] at hvalue
          cases hvalue
        dsimp only
        rw [if_neg hnan]
        exact hemit
    | bool | int | string | light | object | foreign => exact hemit
  · rw [if_neg hk]
    exact hemit

/-- Where a slot is read as a value, it was there. -/
theorem slot_read (h : Yields (slot mode relative) host args m () rest m') (hopen : mode.suppressed = false)
    (hplain : mode.asKey = false) : ∃ a i j, args = a :: rest ∧ argumentIndex a = .ok i ∧
      resolveIndex m (mode.origin relative m) i = some j ∧ m' = m.pushAt j := by
  cases args with
  | nil => cases h
  | cons a rest' =>
      cases hi : argumentIndex a with
      | error e =>
          rw [Yields, slot_misnamed hi] at h
          cases h
      | ok i =>
          cases hj : resolveIndex m (mode.origin relative m) i with
          | none =>
              rw [Yields, slot_missing hi hj] at h
              cases h
          | some j =>
              rw [Yields, slot_yields hi hj hopen (by simp [hplain])] at h
              cases h
              exact ⟨a, i, j, rfl, hi, hj, rfl⟩

/-! ## Scalars -/

/-- How an element is read as a key that elsewhere is read to its end. A value is refused before it is pushed
    if it is checked early, and else only nil is. -/
structure KeyRead (host : Host) (args : List Argument) (m : Machine) (key : Reading Unit) (early : Prop)
    (rest : List Argument) (m' : Machine) : Prop where
  accepted : m'.topValue.refusal? = none → Yields key host args m () rest m'
  refused : ∀ error, m'.topValue.refusal? = some error → early ∨ error = .nullKey →
    Fails key host args m error rest (m'.pop 1)
  undone : early → m'.topValue.refusal? ≠ none → m'.pop 1 = m
  overlooked : ¬ early → m'.topValue.refusal? = some .nanKey → Yields key host args m () rest m'

namespace KeyRead

variable {key : Reading Unit} {early : Prop} {v : Value}

/-- What no element refuses is read as elsewhere. -/
theorem same (h : Yields key host args m () rest m') (hv : m'.topValue.refusal? = none) :
    KeyRead host args m key early rest m' where
  accepted _ := h
  refused error herror _ := by
    rw [hv] at herror
    cases herror
  undone _ hrefused := absurd hv hrefused
  overlooked _ _ := h

/-- A value is pushed unless it is refused. -/
theorem push (hm : m.Framed) (hearly : early)
    (haccepted : v.refusal? = none → Yields key host args m () rest (m.push v))
    (hrefused : ∀ error, v.refusal? = some error → Fails key host args m error rest m) :
    KeyRead host args m key early rest (m.push v) := by
  have htop : (m.push v).topValue = v := topValue_push hm
  have hpop : (m.push v).pop 1 = m := pop_push hm
  refine ⟨?_, ?_, fun _ _ => hpop, fun h => absurd hearly h⟩
  · rw [htop]
    exact haccepted
  · rw [htop, hpop]
    exact fun error h _ => hrefused error h

theorem congr {key' : Reading Unit} {args' : List Argument} (h : KeyRead host args m key early rest m')
    (heq : StateT.run (ExceptT.run key') args' host m = StateT.run (ExceptT.run key) args host m) :
    KeyRead host args' m key' early rest m' :=
  ⟨fun hv => heq.trans (h.accepted hv), fun error hv hchecked => heq.trans (h.refused error hv hchecked),
    h.undone, fun hlate hv => heq.trans (h.overlooked hlate hv)⟩

end KeyRead

variable {d : Directive}

/-- How a scalar is read as a key that is read to its end elsewhere. -/
def ScalarKey (host : Host) (mode : Mode) (d : Directive) (args : List Argument) (m : Machine) : Prop :=
  ∀ rest m', Yields (scalar { mode with asKey := false } d) host args m () rest m' →
    KeyRead host args m (scalar { mode with asKey := true } d) (d ≠ .global) rest m'

theorem slot_key (hm : m.Framed) (hopen : mode.suppressed = false) (hd : d = .slotFromStart ∨ d = .slotFromTop) :
    ScalarKey host mode d args m := by
  obtain ⟨relative, hslot, hd⟩ : ∃ relative, (∀ mode, scalar mode d = slot mode relative) ∧ d ≠ .global := by
    rcases hd with rfl | rfl
    · exact ⟨false, fun _ => rfl, by decide⟩
    · exact ⟨true, fun _ => rfl, by decide⟩
  intro rest m' h
  rw [hslot] at h ⊢
  obtain ⟨a, i, j, rfl, hi, hj, rfl⟩ := slot_read h hopen rfl
  exact .push hm hd (fun hv => slot_yields hi hj hopen fun _ => hv) fun error he => slot_refused hi hj rfl he

theorem number_key (hm : m.Framed) (hopen : mode.suppressed = false) : ScalarKey host mode .number args m := by
  intro rest m' h
  have hread : ∀ (x : Double) left, Yields (do
        if false && x.isNaN then throw .nanKey
        emit mode (modify (·.push (.ofDouble x))) : Reading Unit) host left m () rest m' →
      KeyRead host left m (do
        if true && x.isNaN then throw .nanKey
        emit mode (modify (·.push (.ofDouble x))) : Reading Unit) (Directive.number ≠ .global) rest m' := by
    intro x left h
    rw [if_neg (by simp)] at h
    obtain ⟨-, rfl, rfl⟩ := (emit_yields hopen _).unique h
    refine .push hm (by decide) (fun hv => ?_) fun error he => ?_
    · rw [Value.refusal?_ofDouble] at hv
      rw [if_neg fun hnan => by rw [Bool.true_and] at hnan; rw [if_pos hnan] at hv; cases hv]
      exact emit_yields hopen _
    · rw [Value.refusal?_ofDouble] at he
      split at he
      · rename_i hnan
        cases he
        rw [if_pos (by rw [Bool.true_and, hnan])]
        exact Fails.bind .throw
      · cases he
  cases args with
  | nil => cases h
  | cons a left =>
      cases a with
      | number x => exact (hread x left h).congr rfl
      | int i => exact (hread (.ofInt i) left h).congr rfl
      | bool | text | function | pointer | index => cases h

theorem pushLight_pushes {p : Address} (h : (liftM (Op.pushLight p) : Act ScriptError Unit) host m = .ok () m') :
    m' = m.push (.light p) := by
  rw [Act.run_lift] at h
  by_cases hp : p < Value.lightBound
  · rw [Op.pushLight_ok hp] at h
    cases h
    rfl
  · rw [Op.pushLight_refused hp] at h
    cases h

theorem light_key (nonNull : Bool) (hm : m.Framed) (hopen : mode.suppressed = false) :
    ScalarKey host mode (if nonNull then .lightNonNull else .light) args m := by
  have hd : (if nonNull then Directive.lightNonNull else .light) ≠ .global := by
    cases nonNull <;> decide
  have hlight : ∀ mode, scalar mode (if nonNull then .lightNonNull else .light) = light mode nonNull := by
    cases nonNull <;> exact fun _ => rfl
  intro rest m' h
  rw [hlight] at h ⊢
  cases args with
  | nil => cases h
  | cons a left =>
      cases a with
      | pointer p =>
          suffices hread : KeyRead host left m (if mode.suppressed then pure ()
              else if p = 0 then
                if nonNull then throw .nullUserdata
                else if true then throw .nullKey
                else change (·.push .nil)
              else orFail .argumentMismatch (Op.pushLight p)) _ rest m' from hread.congr rfl
          change Yields (if mode.suppressed then pure ()
            else if p = 0 then
              if nonNull then throw .nullUserdata
              else if false then throw .nullKey
              else change (·.push .nil)
            else orFail .argumentMismatch (Op.pushLight p)) host left m () rest m' at h
          rw [if_neg (by simp [hopen])] at h ⊢
          by_cases hnull : p = 0
          · rw [if_pos hnull] at h ⊢
            cases nonNull with
            | true => cases h
            | false =>
                have hpush : Yields (change (·.push .nil)) host left m () left (m.push .nil) := .perform rfl
                obtain ⟨-, rfl, rfl⟩ := hpush.unique h
                refine .push hm hd (fun hv => by cases hv) fun error he => ?_
                cases he
                exact .throw
          · rw [if_neg hnull] at h ⊢
            obtain ⟨hpush, -⟩ := h.of_orFail
            obtain rfl := pushLight_pushes hpush
            exact .same h (by rw [topValue_push hm]; rfl)
      | int | number | bool | text | function | index => cases h

theorem nil_key (hm : m.Framed) (hopen : mode.suppressed = false) : ScalarKey host mode .nil args m := by
  intro rest m' h
  have hplain : Yields (emit mode (modify (·.push .nil))) host args m () rest m' := h
  obtain ⟨-, rfl, rfl⟩ := (emit_yields hopen _).unique hplain
  refine .push hm (by decide) (fun hv => by cases hv) fun error he => ?_
  cases he
  exact Fails.bind .throw

/-- A global is checked after it was pushed, for nil alone. -/
theorem global_key (hopen : mode.suppressed = false) : ScalarKey host mode .global args m := by
  intro rest m' h
  cases args with
  | nil => cases h
  | cons a left =>
      cases a with
      | text name =>
          suffices hread : KeyRead host left m (if mode.suppressed then pure () else do
              let _ ← orFail .badGlobal (Act.getGlobal name)
              if true && (← machine).topValue.isNil then
                change (·.pop 1)
                throw .nullKey) _ rest m' from hread.congr rfl
          change Yields (if mode.suppressed then pure () else do
            let _ ← orFail .badGlobal (Act.getGlobal name)
            if false && (← machine).topValue.isNil then
              change (·.pop 1)
              throw .nullKey) host left m () rest m' at h
          rw [if_neg (by simp [hopen])] at h ⊢
          obtain ⟨v, _, _, hget, h⟩ := h.of_bind
          obtain ⟨_, _, _, hmachine, h⟩ := h.of_bind
          cases hmachine
          rw [if_neg (by simp)] at h
          cases h
          have hkept : m'.topValue.refusal? ≠ some .nullKey → Yields (do
              let _ ← orFail .badGlobal (Act.getGlobal name)
              if true && (← machine).topValue.isNil then
                change (·.pop 1)
                throw .nullKey : Reading Unit) host left m () rest m' := by
            intro hv
            have hnil : m'.topValue ≠ .nil := mt Value.refusal?_eq_null_iff.mpr hv
            refine hget.bind (Yields.machine.bind ?_)
            rw [if_neg (by cases hv' : m'.topValue <;> simp_all [Value.isNil])]
            exact .pure ()
          refine ⟨fun hv => hkept (by simp [hv]), fun error he hchecked => ?_, fun hearly => absurd rfl hearly,
            fun _ hv => hkept (by simp [hv])⟩
          obtain rfl := hchecked.resolve_left fun h => h rfl
          have hnil := Value.refusal?_eq_null_iff.mp he
          refine hget.bind_fails (Yields.machine.bind_fails ?_)
          rw [hnil, if_pos (by rfl)]
          have hpop : Yields (change (·.pop 1)) host rest m' () rest (m'.pop 1) := .perform rfl
          exact hpop.bind_fails .throw
      | int | number | bool | function | pointer | index => cases h

/-- Where nothing is checked, what is pushed must be neither nil nor NaN. -/
theorem emitted_key {early : Prop} (hopen : mode.suppressed = false) (g : Machine → Machine)
    (hg : (g m).topValue.refusal? = none) (h : Yields (emit mode (modify g)) host args m () rest m') :
    KeyRead host args m (emit mode (modify g)) early rest m' := by
  obtain ⟨-, rfl, rfl⟩ := (emit_yields hopen g).unique h
  exact .same h hg

theorem integer_key (hm : m.Framed) (hopen : mode.suppressed = false) : ScalarKey host mode .integer args m := by
  intro rest m' h
  cases args with
  | nil => cases h
  | cons a left =>
      cases a with
      | int i =>
          refine (emitted_key hopen (·.pushInt i) ?_ h).congr rfl
          have hframed : (m.ofInt i).2.Framed := hm
          rw [Machine.pushInt, topValue_push hframed]
          change (m.heap.ofInt i).1.refusal? = none
          unfold Heap.ofInt
          split <;> rfl
      | number | bool | text | function | pointer | index => cases h

theorem text_key (hm : m.Framed) (hopen : mode.suppressed = false) : ScalarKey host mode .text args m := by
  intro rest m' h
  cases args with
  | nil => cases h
  | cons a left =>
      cases a with
      | text t =>
          refine (emitted_key hopen (·.pushText t) ?_ h).congr rfl
          have hframed : (m.intern (Utf8.encode t)).2.Framed := hm
          exact (congrArg Value.refusal? (topValue_push hframed)).trans rfl
      | int | number | bool | function | pointer | index => cases h

/-- A collection may run before a function is made, and the function is on top after it. -/
theorem function_key (hhost : host.Lawful) (hm : m.Framed) (hopen : mode.suppressed = false) :
    ScalarKey host mode .function args m := by
  intro rest m' h
  cases args with
  | nil => cases h
  | cons a left =>
      cases a with
      | function code =>
          suffices hread : KeyRead host left m (emit mode (Act.pushNative code)) _ rest m' from hread.congr rfl
          have hplain : Yields (emit mode (Act.pushNative code)) host left m () rest m' := h
          rw [emit, if_neg (by simp [hopen])] at hplain ⊢
          obtain ⟨hrun, -⟩ := hplain.of_perform
          obtain ⟨m₁, hcollect, -⟩ := Act.collectIfDue_cases (ε := Empty) host m
          obtain ⟨f, -, hpush⟩ := Act.pushNative_ok code hcollect
          rw [hpush] at hrun
          cases hrun
          have hframed := (Act.collectIfDue_lawful.run_ok hhost hm hcollect).framed hm
          have hmade : ({ m₁ with heap := (m₁.heap.newFunction f).2 } : Machine).Framed := hframed
          refine .same hplain ?_
          rw [topValue_push hmade]
          rfl
      | int | number | bool | text | pointer | index => cases h

theorem scalar_key (hhost : host.Lawful) (hm : m.Framed) (hopen : mode.suppressed = false) (d : Directive)
    (args : List Argument) : ScalarKey host mode d args m := by
  have hpushed : ∀ b, (m.push (.bool b)).topValue.refusal? = none := by
    intro b
    rw [topValue_push hm]
    rfl
  cases d with
  | slotFromStart => exact slot_key hm hopen (.inl rfl)
  | slotFromTop => exact slot_key hm hopen (.inr rfl)
  | number => exact number_key hm hopen
  | light => exact light_key false hm hopen
  | lightNonNull => exact light_key true hm hopen
  | nil => exact nil_key hm hopen
  | global => exact global_key hopen
  | integer => exact integer_key hm hopen
  | text => exact text_key hm hopen
  | function => exact function_key hhost hm hopen
  | constTrue => exact fun rest m' h => (emitted_key hopen (·.push (.bool true)) (hpushed true) h).congr rfl
  | constFalse => exact fun rest m' h => (emitted_key hopen (·.push (.bool false)) (hpushed false) h).congr rfl
  | boolean =>
      intro rest m' h
      cases args with
      | nil => cases h
      | cons a left =>
          cases a with
          | bool b => exact (emitted_key hopen (·.push (.bool b)) (hpushed b) h).congr rfl
          | int | number | text | function | pointer | index => cases h
  | openTable | closeTable | condition | key | unknown => exact fun rest m' h => by cases h

/-! ## Pairs -/

variable {format : List Directive} {start : Machine} {own : List Nat} {s : List Value} {e key value : Element}

/-- A key that is read as a value elsewhere is read so, or refused. -/
theorem element_key (hhost : host.Lawful) (hstart : start.Reachable) (hs : start.stack.toList <+: s)
    (he : e.Within format false) (hoperand : e.isOperand = true) (hmid : Midway start format own (Laid start.base s) m)
    (hopen : mode.suppressed = false)
    (hread : Yields (element { mode with asKey := false } e) host args m () rest m')
    (hkept : (∃ d, e = .scalar d) ∨ m'.closed = start.closed) :
    KeyRead host args m (element { mode with asKey := true } e) (e ≠ .scalar .global) rest m' := by
  cases he with
  | @scalar _ d =>
      rw [element] at hread ⊢
      have hkey := scalar_key hhost (hmid.framed hstart.framed) hopen d args rest m' hread
      have hiff : (Element.scalar d ≠ .scalar .global) = (d ≠ .global) := by simp
      rwa [hiff]
  | table hes =>
      have hc : m'.closed = start.closed := hkept.resolve_left fun h => by
        obtain ⟨d, h⟩ := h
        cases h
      obtain ⟨slot, hmid'⟩ := (table_read hhost hstart hs hes hmid hread).2 hopen
      have htop : m'.topValue = .table slot :=
        (hmid'.shape hc).value_fromTop (base_le hstart.framed hs) rfl
      refine .same ?_ (by rw [htop]; rfl)
      rw [element] at hread ⊢
      exact hread
  | condition => cases hoperand
  | bad =>
      rw [element] at hread
      cases hread

/-- Key and value lie above the table that the pair belongs to. -/
theorem Position.Stands.pair {inside : Bool} {m₁ m₂ : Machine} {rest' : List Argument} (hhost : host.Lawful)
    (hstart : start.Reachable) (h : Stands start format own s inside ⟨mode, .pair key value, args, m⟩)
    (hopen : mode.suppressed = false)
    (hkey : Yields (Reading.element { mode with asKey := false } key) host args m () rest m₁)
    (hvalue : Yields (Reading.element { mode with asKey := false } value) host rest m₁ () rest' m₂)
    (hc : m₂.closed = start.closed) :
    Runs [] start m₂ ∧ ∃ below slot, start.stack.toList <+: below ∧ m.topValue = .table slot ∧
      Laid start.base (below ++ [.table slot] ++ [m₁.topValue] ++ [m₂.topValue]) m₂ := by
  obtain ⟨hwithin, hs, hmid, htable⟩ := h
  cases hwithin with
  | pair hkeyOperand hvalueOperand hkeyWithin hvalueWithin =>
      obtain ⟨below, slot, rfl, -, hbelow⟩ := htable rfl hopen
      have hbase := base_le hstart.framed hbelow
      have hshown : ∀ {e : Element} {args rest m m'} (t : List Value), e.isOperand = true →
          e.Within format false → start.stack.toList <+: t → Midway start format own (Laid start.base t) m →
          Yields (Reading.element { mode with asKey := false } e) host args m () rest m' →
          ∃ v, Midway start format own (Laid start.base (t ++ [v])) m' := by
        intro e args rest m m' t hoperand hwithin ht hmid hread
        have hmeets := (element_meets hhost hstart { mode with asKey := false } e hwithin own t args ht
          fun h => by cases h).yields hmid hread
        rw [Element.pushes_operand hoperand (element_ensures _ e args hread).1, hopen] at hmeets
        exact Midway.exists_shape (hmeets.mono fun h => h.imp fun _ h => h.2)
      obtain ⟨w, hmid₁⟩ := hshown _ hkeyOperand hkeyWithin hs hmid hkey
      obtain ⟨v, hmid₂⟩ := hshown _ hvalueOperand hvalueWithin (hs.trans (List.prefix_append _ _)) hmid₁ hvalue
      have hframed₁ := hmid₁.framed hstart.framed
      have hruns₁ := (element_lawful _ key _).run_ok hhost (hmid.framed hstart.framed) hkey
      have hruns₂ := (element_lawful _ value _).run_ok hhost hframed₁ hvalue
      have hc₁ := (hmid₁.runs.closed_between hruns₂ hstart.framed hc).1
      have hc₀ := (hmid.runs.closed_between hruns₁ hstart.framed hc₁).1
      have hw : m₁.topValue = w := (hmid₁.shape hc₁).value_fromTop (by simp; omega) rfl
      have hv : m₂.topValue = v := (hmid₂.shape hc).value_fromTop (by simp; omega) rfl
      refine ⟨hmid₂.runs, below, slot, hbelow, (hmid.shape hc₀).value_fromTop hbase rfl, ?_⟩
      rw [hw, hv]
      exact hmid₂.shape hc

end Reading

namespace Machine

variable {host : Host} {m m₀ m₁ : Machine}

/-- The value that a key reads as decides over its pair. Nil and NaN are refused before anything is stored,
    unless NaN comes from a global: that is noticed after the value was read, and reported as nil is. Under any
    other key the value is stored in the table that the pair belongs to. -/
theorem Reachable.pair_keys (hm : m.Reachable) (hhost : host.Lawful) {ds : List Directive} {mode : Reading.Mode}
    {key value : Element} {args left rest : List Argument}
    (hreach : Reading.Reaches host { start := m.top + 1 } (Format.elements ds) args m
      ⟨mode, .pair key value, left, m₀⟩)
    (hopen : mode.suppressed = false)
    (hkey : Reading.Yields (Reading.element { mode with asKey := false } key) host left m₀ () rest m₁)
    (hkept : (∃ d, key = .scalar d) ∨ m₁.closed = m.closed) :
    (∀ error, m₁.topValue.refusal? = some error → key ≠ .scalar .global ∨ error = .nullKey →
      Act.marshal ds args host m = .error error ((m₁.pop 1).setTop m.top) ∧
        (key ≠ .scalar .global → m₁.pop 1 = m₀)) ∧
    ∀ rest' m₂, Reading.Yields (Reading.element { mode with asKey := false } value) host rest m₁ () rest' m₂ →
      m₂.closed = m.closed →
      (key = .scalar .global → m₁.topValue.refusal? = some .nanKey →
        Act.marshal ds args host m = .error .nullKey (m₂.setTop m.top)) ∧
      (m₁.topValue.refusal? = none → ∃ slot k m₃, m₀.topValue = .table slot ∧
        m₂.heap.key? m₁.topValue = some k ∧ m₃ = (m₂.setEntry slot k m₂.topValue).pop 2 ∧
        Reading.Yields (Reading.element mode (.pair key value)) host left m₀ () rest' m₃ ∧
        ∀ t, m₂.heap.tables.get? slot = some t → m₃.rawGet slot m₁.topValue = m₂.topValue) := by
  obtain ⟨own, s, inside, hstands⟩ := hreach.stands hhost hm
  have hread : Reading.KeyRead host left m₀ (Reading.element { mode with asKey := true } key)
      (key ≠ .scalar .global) rest m₁ := by
    cases hstands.within with
    | pair hoperand _ hwithin _ =>
        exact Reading.element_key hhost hm hstands.stack hwithin hoperand hstands.midway hopen hkey hkept
  refine ⟨fun error he hchecked => ⟨?_, fun hearly => hread.undone hearly (by simp [he])⟩, ?_⟩
  · have hfails : Reading.Fails (Reading.element mode (.pair key value)) host left m₀ error rest (m₁.pop 1) := by
      rw [Reading.element]
      exact (hread.refused error he hchecked).bind
    exact hreach.marshal_eq hfails
  intro rest' m₂ hvalue hc
  obtain ⟨hruns, below, slot, hbelow, htable, hl⟩ := hstands.pair hhost hm hopen hkey hvalue hc
  have hbase := Reading.base_le hm.framed hbelow
  refine ⟨fun hglobal hnan => ?_, fun hfit => ?_⟩
  · obtain ⟨e, hstore⟩ := Op.rawSet_error hl hbase (Value.key?_of_refusal? hnan _)
    have hfails : Reading.Fails (Reading.element mode (.pair key value)) host left m₀ .nullKey rest' m₂ := by
      rw [Reading.element]
      refine (hread.overlooked (fun h => h hglobal) hnan).bind_fails (hvalue.bind_fails ?_)
      rw [if_pos (by simp [hopen])]
      exact .orFail hstore
    exact hreach.marshal_eq hfails
  · have hkey : m₂.heap.key? m₁.topValue ≠ none :=
      Reading.key?_ne_none (Value.refusal?_eq_none_iff.mp hfit) _
    obtain ⟨k, hk⟩ := Option.ne_none_iff_exists'.mp hkey
    refine ⟨slot, k, _, htable, hk, rfl, ?_, fun t ht => ?_⟩
    · rw [Reading.element]
      refine (hread.accepted hfit).bind (hvalue.bind ?_)
      rw [if_pos (by simp [hopen])]
      exact .orFail (Op.rawSet_eq hl hbase hk)
    · have hlayered : t.Layered := by
        have hparted := (hm.runs hruns).parted slot
        rw [Heap.table, ht] at hparted
        exact hparted.layered
      exact (rawGet_setEntry ht hlayered _).trans (if_pos hk)

/-- A table with one pair of scalars. -/
def paired (d d' : Directive) : List Element := [.table [.pair (.scalar d) (.scalar d')]]

theorem elements_paired {d d' : Directive} (hd : d.isScalar = true) (hd' : d'.isScalar = true) :
    Format.elements (Element.listDirectives (paired d d')) = paired d d' := by
  refine Format.elements_listDirectives fun e he => ?_
  obtain rfl := List.mem_singleton.mp he
  refine .table (by decide) fun e he => ?_
  obtain rfl := List.mem_singleton.mp he
  exact .pair (by decide) (.scalar hd) (.scalar hd')

/-- The pair is reached once the table is there. -/
theorem reaches_paired {d d' : Directive} {n : Nat} {args : List Argument}
    (hmade : (Act.newTable : Act Empty Unit) host m = .ok () m₀) :
    Reading.Reaches host { start := n } (paired d d') args m
      ⟨{ start := n }, .pair (.scalar d) (.scalar d'), args, m₀⟩ := by
  have hbrace : Reading.Yields (Reading.element { start := n } (.table [])) host args m () args m₀ := by
    rw [Reading.element]
    refine .bind (.perform hmade) (.bind .machine ?_)
    rw [Reading.items]
    exact .pure ()
  have hitem : Reading.Position.Opens host ⟨{ start := n }, .table ([] ++ .pair (.scalar d) (.scalar d') :: []), args, m⟩
      ⟨{ start := n }, .pair (.scalar d) (.scalar d'), args, m₀⟩ := .item hbrace
  exact .inner (.outer (show paired d d' = [] ++ _ :: [] from rfl) (.pure ())) hitem

/-- The table was made, and the pair left it as it was. -/
theorem unnamed_pair_keys : (create {}).Reachable ∧ (Programs.host [] 1).Lawful ∧
    ∃ m₀ : Machine, (Act.newTable : Act Empty Unit) (Programs.host [] 1) (create {}) = .ok () m₀ ∧
      Act.marshal (Element.listDirectives (paired .nil .constTrue)) [] (Programs.host [] 1) (create {}) =
        .error .nullKey (m₀.setTop 0) := by
  have hhost : (Programs.host [] 1).Lawful := Programs.host_lawful 1
  obtain ⟨m₀, hmade⟩ : ∃ m₀ : Machine,
      (Act.newTable : Act Empty Unit) (Programs.host [] 1) (create {}) = .ok () m₀ := ⟨_, rfl⟩
  have hframed := (Act.newTable_lawful.run_ok hhost (reachable_create {}).framed hmade).framed
    (reachable_create {}).framed
  refine ⟨reachable_create {}, hhost, m₀, hmade, ?_⟩
  have hreach : Reading.Reaches (Programs.host [] 1) { start := 1 } (paired .nil .constTrue) [] (create {})
      ⟨{ start := 1 }, .pair (.scalar .nil) (.scalar .constTrue), [], m₀⟩ := reaches_paired hmade
  rw [← elements_paired rfl rfl] at hreach
  have hkey : Reading.Yields (Reading.element { start := 1 } (.scalar .nil)) (Programs.host [] 1) [] m₀ () []
      (m₀.push .nil) := by
    rw [Reading.element]
    exact .perform rfl
  have htop : (m₀.push .nil).topValue = .nil := topValue_push hframed
  have hpop : (m₀.push .nil).pop 1 = m₀ := pop_push hframed
  have hkeys := (reachable_create {}).pair_keys hhost hreach rfl hkey (.inl ⟨_, rfl⟩)
  obtain ⟨hrefused, -⟩ := hkeys.1 .nullKey (by rw [htop]; rfl) (.inr rfl)
  rwa [hpop] at hrefused

end Machine

end ScriptHost
