import ScriptHost.Proofs.Building

/-! # Reading scalars

A directive that builds one value leaves what it denotes on top of the stack, or nothing where a
condition suppresses it.
-/

namespace ScriptHost

open Machine

theorem BinaryFormat.encode_le (f : BinaryFormat) (num den : Nat) : f.encode num den ≤ f.infinity := by
  unfold encode
  split
  · exact Nat.zero_le _
  · exact Nat.min_le_right _ _

namespace Double

theorem isNaN_canonical (d : Double) : d.canonical.isNaN = d.isNaN := by
  unfold canonical
  cases h : d.isNaN with
  | true => rfl
  | false => simp [h]

theorem magnitude_ofMagnitude (negative : Bool) (n : Nat) :
    (ofMagnitude negative n).magnitude = n % 2 ^ 63 := by
  cases negative <;> simp [ofMagnitude, magnitude]

/-- Rounding never makes a NaN. -/
theorem isNaN_ofRatio (negative : Bool) (num den : Nat) : (ofRatio negative num den).isNaN = false := by
  rw [isNaN, ofRatio, magnitude_ofMagnitude, decide_eq_false_iff_not, Nat.not_lt]
  exact Nat.le_trans (Nat.mod_le _ _) (BinaryFormat.double.encode_le num den)

end Double

namespace Reading

variable {α β : Type} {x : Reading α} {f : α → Reading β} {host : Host}
  {args rest rest' : List Argument} {m m' m'' : Machine} {a : α} {b : β}

/-- Reading succeeds with a result, and leaves arguments and a machine. -/
def Yields (x : Reading α) (host : Host) (args : List Argument) (m : Machine) (a : α)
    (rest : List Argument) (m' : Machine) : Prop :=
  StateT.run (ExceptT.run x) args host m = .ok (.ok a, rest) m'

namespace Yields

theorem pure (a : α) : Yields (pure a) host args m a args m := rfl

theorem bind (hx : Yields x host args m a rest m') (hf : Yields (f a) host rest m' b rest' m'') :
    Yields (x >>= f) host args m b rest' m'' :=
  (Act.bind_ok hx).trans hf

theorem perform {y : Act Empty α} (h : y host m = .ok a m') :
    Yields (perform y) host args m a args m' := by
  have hlift : (y >>= fun a => (Pure.pure (a, args) : Act Empty (α × List Argument))) host m =
      .ok (a, args) m' := Act.bind_ok h
  exact Act.bind_ok hlift

theorem machine : Yields machine host args m m args m := rfl

theorem nextArgument {argument : Argument} :
    Yields nextArgument host (argument :: args) m argument args m := rfl

theorem condition {b : Bool} : Yields condition host (.bool b :: args) m b args m := rfl

theorem orFail {e : FormatError} {y : Act ScriptError α} (h : y host m = .ok a m') :
    Yields (orFail e y) host args m a args m' := by
  have hattempt : (Act.attempt y : Act Empty (Except ScriptError α)) host m = .ok (.ok a) m' := by
    rw [Act.run_attempt, h]
  exact bind (perform hattempt) (pure a : Yields (Pure.pure a) host args m' a args m')

end Yields

/-! ## Emission -/

variable {start : Machine} {σ τ : Supply} {made : List Made} {ρ : Nat → Ref} {xs : List Datum}
  {vs : List Value} {c : Contribution} {d : Directive} {mode : Mode} {datum : Datum}

/-- What an element contributed lies on top of the stack, or in the table that lies there. -/
def Added (start : Machine) (σ : Supply) (ρ : Nat → Ref) (xs : List Datum) (vs : List Value)
    (m : Machine) : Contribution → Prop
  | .nothing => Built start σ.made ρ xs vs m
  | .value x => ∃ v, Built start σ.made ρ (xs ++ [x]) (vs ++ [v]) m
  | .entry key x => ∃ id, xs.getLast? = some (.object id) ∧
      Built start (σ.contribute id (.entry key x)).made ρ xs vs m

/-- What an element that builds a datum contributes. -/
def Emits (mode : Mode) (datum : Datum) (c : Contribution) : Prop :=
  mode.suppressed = true ∧ c = .nothing ∨ mode.suppressed = false ∧ c = .value datum

/-- Emission pushes the datum or does nothing. -/
theorem emit_added {g : Machine → Machine} (hb : Built start made ρ xs vs m)
    (hc : Emits mode datum c) (hg : ∃ v, Built start made ρ (xs ++ [datum]) (vs ++ [v]) (g m)) :
    ∃ m', Yields (emit mode (modify g)) host args m () args m' ∧
      Added start ⟨args, made⟩ ρ xs vs m' c := by
  rcases hc with ⟨hsuppressed, rfl⟩ | ⟨hlive, rfl⟩
  · refine ⟨m, ?_, hb⟩
    rw [emit, if_pos hsuppressed]
    exact .pure ()
  · refine ⟨g m, ?_, hg⟩
    rw [emit, if_neg (by simp [hlive])]
    exact .perform rfl

theorem number_added (hb : Built start made ρ xs vs m) (d : Double)
    (hc : Emits mode (.number d.canonical) c) (hkey : mode.asKey = true → d.isNaN = false) :
    ∃ m', Yields (do
        if mode.asKey && d.isNaN then throw .nanKey
        emit mode (modify (·.push (.ofDouble d)))) host args m () args m' ∧
      Added start ⟨args, made⟩ ρ xs vs m' c := by
  obtain ⟨m', hrun, hadded⟩ := emit_added (g := (·.push (.ofDouble d))) hb hc
    ⟨_, hb.push (.number d.canonical) nofun⟩
  refine ⟨m', ?_, hadded⟩
  have hnan : ¬ (mode.asKey && d.isNaN) = true := by
    rw [Bool.and_eq_true]
    rintro ⟨hk, hnan⟩
    simp [hkey hk] at hnan
  rw [if_neg hnan]
  exact hrun

theorem light_added (hb : Built start made ρ xs vs m) (nonNull : Bool) (a : Address)
    (hc : Emits mode (if a = 0 then .nil else .light a) c)
    (hbound : c ≠ .nothing → if a = 0 then nonNull = false else a < Value.lightBound)
    (hkey : mode.asKey = true → c ≠ .value .nil) :
    ∃ m', Yields (light mode nonNull) host (.pointer a :: args) m () args m' ∧
      Added start ⟨args, made⟩ ρ xs vs m' c := by
  suffices h : ∃ m', Yields (do
      if mode.suppressed then pure ()
      else if a = 0 then
        if nonNull then throw .nullUserdata
        else if mode.asKey then throw .nullKey
        else change (·.push .nil)
      else orFail .argumentMismatch (Op.pushLight a)) host args m () args m' ∧
      Added start ⟨args, made⟩ ρ xs vs m' c by
    obtain ⟨m', hrun, hadded⟩ := h
    exact ⟨m', .bind .nextArgument hrun, hadded⟩
  rcases hc with ⟨hsuppressed, rfl⟩ | ⟨hlive, rfl⟩
  · rw [if_pos hsuppressed]
    exact ⟨m, .pure (), hb⟩
  · rw [if_neg (by simp [hlive])]
    by_cases ha : a = 0
    · subst ha
      have hnull : nonNull = false := by simpa using hbound nofun
      have hplain : ¬ mode.asKey = true := fun hk => hkey hk rfl
      rw [if_pos rfl, if_neg (by simp [hnull]), if_neg hplain]
      exact ⟨_, .perform rfl, _, hb.push .nil nofun⟩
    · have hlt : a < Value.lightBound := by simpa [ha] using hbound nofun
      simp only [if_neg ha]
      exact ⟨_, .orFail (Op.pushLight_ok hlt), _, hb.push (.light a) nofun⟩

/-- A directive that builds one value leaves what it denotes. -/
theorem scalar_added (hb : Built start σ.made ρ xs vs m)
    (hdenote : d.denote (!mode.suppressed) σ = some (c, τ))
    (hkey : mode.asKey = true → (Element.scalar d).isRefused σ.args = false ∧ c ≠ .value .nil) :
    ∃ ρ' m', Yields (scalar mode d) host σ.args m () τ.args m' ∧ Added start τ ρ' xs vs m' c := by
  obtain ⟨given, made⟩ := σ
  rcases Directive.denote_cases hdenote with
    ⟨code, args, rfl, rfl, ⟨hlive, rfl, rfl⟩ | ⟨hlive, rfl, rfl⟩⟩ | ⟨datum, args, htakes, rfl, hcase⟩
  · refine ⟨ρ, m, .bind .nextArgument ?_, hb⟩
    have hsuppressed : mode.suppressed = true := by simpa using hlive
    simp only [emit, hsuppressed, if_true]
    exact .pure ()
  · obtain ⟨ρ', v, m', hrun, hb'⟩ := hb.pushNative code host
    refine ⟨ρ', m', .bind .nextArgument ?_, v, hb'⟩
    have hopen : mode.suppressed = false := by simpa using hlive
    simp only [emit, hopen, Bool.false_eq_true, if_false]
    exact .perform hrun
  · have hc : Emits mode datum c := by
      rcases hcase with ⟨hlive, hc⟩ | ⟨hlive, -, hc⟩
      · exact .inl ⟨by simpa using hlive, hc⟩
      · exact .inr ⟨by simpa using hlive, hc⟩
    refine ⟨ρ, ?_⟩
    cases htakes with
    | boolean b =>
        obtain ⟨m', hrun, hadded⟩ := emit_added (g := (·.push (.bool b))) hb hc
          ⟨_, hb.push (.bool b) nofun⟩
        exact ⟨m', .bind .condition hrun, hadded⟩
    | constTrue => exact emit_added hb hc ⟨_, hb.push (.bool true) nofun⟩
    | constFalse => exact emit_added hb hc ⟨_, hb.push (.bool false) nofun⟩
    | integer i =>
        obtain ⟨m', hrun, hadded⟩ := emit_added (g := (·.pushInt i)) hb hc (hb.pushInt i)
        exact ⟨m', .bind .nextArgument hrun, hadded⟩
    | number d =>
        have hnan : mode.asKey = true → d.isNaN = false :=
          fun hk => d.isNaN_canonical ▸ (hkey hk).1
        obtain ⟨m', hrun, hadded⟩ := number_added hb d hc hnan
        exact ⟨m', .bind .nextArgument (.bind (.pure d) hrun), hadded⟩
    | numberInt i =>
        have hnan : mode.asKey = true → (Double.ofInt i).isNaN = false :=
          fun hk => (Double.ofInt i).isNaN_canonical ▸ (hkey hk).1
        obtain ⟨m', hrun, hadded⟩ := number_added hb (Double.ofInt i) hc hnan
        exact ⟨m', .bind .nextArgument (.bind (.pure _) hrun), hadded⟩
    | text s =>
        obtain ⟨m', hrun, hadded⟩ := emit_added (g := (·.pushText s)) hb hc (hb.pushText s)
        exact ⟨m', .bind .nextArgument hrun, hadded⟩
    | light a =>
        refine light_added hb false a hc (fun hsome => ?_) fun hk => (hkey hk).2
        rcases hcase with ⟨-, rfl⟩ | ⟨-, hadmits, -⟩
        · cases hsome rfl
        · by_cases ha : a = 0 <;> simp_all [Directive.admits]
    | lightNonNull a =>
        refine light_added hb true a hc (fun hsome => ?_) fun hk => (hkey hk).2
        rcases hcase with ⟨-, rfl⟩ | ⟨-, hadmits, -⟩
        · cases hsome rfl
        · by_cases ha : a = 0 <;> simp_all [Directive.admits]
    | nil =>
        have hplain : ¬ mode.asKey = true := fun hk => by cases (hkey hk).1
        obtain ⟨m', hrun, hadded⟩ := emit_added (g := (·.push .nil)) hb hc
          ⟨_, hb.push .nil nofun⟩
        refine ⟨m', ?_, hadded⟩
        rw [scalar, if_neg hplain]
        exact hrun

end Reading

end ScriptHost
