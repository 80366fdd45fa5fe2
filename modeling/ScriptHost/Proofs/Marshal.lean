import ScriptHost.Proofs.Emission
import ScriptHost.Proofs.Isolation

/-! # Marshaling pushes what a format denotes

Elements are followed in the order in which they are read. What they add to a table is what they add
to its map, whichever way the entries came to lie in the table.
-/

namespace ScriptHost

open Machine

/-! ## Contributions -/

theorem Contribution.pair_eq_some {k v c : Contribution} (h : pair k v = some c) :
    k = .nothing ∧ v = .nothing ∧ c = .nothing ∨
    ∃ x₀ x key, k = .value x₀ ∧ v = .value x ∧ c = .entry key x ∧ x₀.key? = some key ∧ x ≠ .nil := by
  unfold pair at h
  split at h
  · rename_i x₀ x
    split at h
    · cases h
    · rename_i hx
      obtain ⟨key, hkey, rfl⟩ := Option.map_eq_some_iff.mp h
      exact .inr ⟨x₀, x, key, rfl, rfl, rfl, hkey, hx⟩
  · cases h
    exact .inl ⟨rfl, rfl, rfl⟩
  · cases h

namespace Element

variable {e key value : Element} {σ τ : Supply} {c : Contribution} {live : Bool}

/-- Key and value contribute one after the other, and the key is none that is refused. -/
theorem denote_pair (h : (pair key value).denote live σ = some (c, τ)) :
    ∃ k v υ, key.isRefused σ.args = false ∧ key.denote live σ = some (k, υ) ∧
      value.denote live υ = some (v, τ) ∧ Contribution.pair k v = some c := by
  rw [denote] at h
  split at h
  · cases h
  · rename_i hrefused
    split at h
    · cases h
    · rename_i k υ hk
      split at h
      · cases h
      · rename_i v _ hv
        obtain ⟨c', hpair, heq⟩ := Option.map_eq_some_iff.mp h
        cases heq
        exact ⟨k, v, υ, by simpa using hrefused, hk, hv, hpair⟩

theorem denote_condition (h : (condition e).denote live σ = some (c, τ)) :
    ∃ b args, σ.args = .bool b :: args ∧ e.denote (live && b) { σ with args } = some (c, τ) := by
  rw [denote] at h
  split at h
  · rename_i b args hargs
    exact ⟨b, args, hargs, h⟩
  · cases h

/-- What a condition suppresses contributes nothing. -/
theorem denote_false {e : Element} {σ τ : Supply} {c : Contribution}
    (h : e.denote false σ = some (c, τ)) : c = .nothing := by
  cases e with
  | scalar d =>
      rw [denote] at h
      rcases Directive.denote_cases h with ⟨_, _, -, -, ⟨-, hc, -⟩ | ⟨hlive, -⟩⟩ |
        ⟨_, _, -, -, ⟨-, hc⟩ | ⟨hlive, -⟩⟩
      · exact hc
      · cases hlive
      · exact hc
      · cases hlive
  | table es =>
      rw [denote, if_neg Bool.false_ne_true, Option.map_eq_some_iff] at h
      obtain ⟨_, -, heq⟩ := h
      cases heq
      rfl
  | condition e =>
      obtain ⟨b, args, -, h⟩ := denote_condition h
      exact denote_false h
  | pair key value =>
      obtain ⟨k, v, υ, -, hk, -, hpair⟩ := denote_pair h
      obtain rfl := denote_false hk
      rcases Contribution.pair_eq_some hpair with ⟨-, -, hc⟩ | ⟨_, _, _, hk, -⟩
      · exact hc
      · cases hk
  | bad e =>
      rw [denote] at h
      cases h
termination_by sizeOf e

/-- An operand contributes a value unless it is suppressed. -/
theorem denote_operand (he : e.isOperand = true) (h : e.denote true σ = some (c, τ)) :
    ∃ x, c = .value x := by
  cases e with
  | scalar d =>
      rw [denote] at h
      rcases Directive.denote_cases h with ⟨_, _, -, -, ⟨hlive, -⟩ | ⟨-, hc, -⟩⟩ |
        ⟨_, _, -, -, ⟨hlive, -⟩ | ⟨-, -, hc⟩⟩
      · cases hlive
      · exact ⟨_, hc⟩
      · cases hlive
      · exact ⟨_, hc⟩
  | table es =>
      rw [denote, if_pos rfl, Option.map_eq_some_iff] at h
      obtain ⟨_, -, heq⟩ := h
      cases heq
      exact ⟨_, rfl⟩
  | condition | pair => cases he
  | bad e =>
      rw [denote] at h
      cases h

theorem WellFormed.isOperand {depth : Nat} {role : Format.Role} (h : e.WellFormed depth role)
    (hrole : role ≠ .plain) : e.isOperand = true := by
  cases h with
  | scalar | table => rfl
  | condition | pair => exact absurd rfl hrole

end Element

/-! ## Storing -/

namespace Op

variable {m : Machine} {b n slot : Nat} {s : List Value} {v w : Value} {key : Key} {i : StackIndex}

/-- Appending to the table below the top. -/
theorem append_eq (hl : Laid b (s ++ [.table slot] ++ [v]) m) (hb : b ≤ s.length)
    (hn : b + n = s.length + 1) : append (.fromBottom n) m =
      .ok () ((m.setEntry slot (.integer ((m.heap.table slot).length + 1)) v).pop 1) := by
  have htop : m.value (.fromTop 1) = v := by
    refine hl.value_fromTop ?_ rfl
    rw [List.length_append]
    omega
  rw [List.append_assoc] at hl
  have htable := hl.value_fromBottom hb hn
  have hlength : m.lengthAt (.fromBottom n) = (m.heap.table slot).length := by
    rw [Machine.lengthAt, htable]
    rfl
  have hstored : rawSetInt (.fromBottom n) ((m.heap.table slot).length + 1) m =
      .ok () ((m.setEntry slot (.integer ((m.heap.table slot).length + 1)) v).pop 1) := by
    rw [rawSetInt, run_bind, run_get]
    refine (Op.bind_ok (tableAt_eq htable)).trans ?_
    rw [← htop]
    rfl
  rw [append, run_bind, run_get]
  change rawSetInt (.fromBottom n) (m.lengthAt (.fromBottom n) + 1) m = _
  rw [hlength]
  exact hstored

/-- What is stored goes to the table below key and value. -/
theorem rawSet_below (hl : Laid b (s ++ [.table slot] ++ [w] ++ [v]) m) (hb : b ≤ s.length) :
    rawSet (.fromTop 3) m = (rawStore slot w v >>= fun _ => modify (·.pop 2)) m := by
  have htop : m.value (.fromTop 1) = v := by
    refine hl.value_fromTop ?_ rfl
    simp only [List.length_append]
    omega
  have hbelow : m.value (.fromTop 2) = w := by
    rw [List.append_assoc] at hl
    refine hl.value_fromTop ?_ rfl
    rw [List.length_append]
    omega
  have hsize : m.top = s.length + 3 - b := by
    rw [hl.top]
    simp
  have htable : m.value (m.absolute (.fromTop 3)) = .table slot := by
    rw [Machine.absolute, if_pos (by omega)]
    rw [List.append_assoc, List.append_assoc] at hl
    exact hl.value_fromBottom hb (by omega)
  rw [rawSet, run_bind, run_get]
  refine (Op.bind_ok (tableAt_eq htable)).trans ?_
  rw [run_bind, run_get]
  change (rawStore slot (m.value (.fromTop 2)) (m.value (.fromTop 1)) >>= fun _ =>
    modify (·.pop 2)) m = _
  rw [htop, hbelow]

/-- Storing in the table below key and value. -/
theorem rawSet_eq (hl : Laid b (s ++ [.table slot] ++ [w] ++ [v]) m) (hb : b ≤ s.length)
    (hkey : m.heap.key? w = some key) :
    rawSet (.fromTop 3) m = .ok () ((m.setEntry slot key v).pop 2) := by
  have hstore : rawStore slot w v m = .ok () (m.setEntry slot key v) := by
    rw [rawStore, run_bind, run_get]
    dsimp only
    rw [hkey]
    cases w with
    | nil => cases hkey
    | bool | float | int | string | light | object | foreign => rfl
  rw [rawSet_below hl hb]
  exact (Op.bind_ok hstore).trans rfl

/-- Nothing is stored under a value that is no key. -/
theorem rawSet_error (hl : Laid b (s ++ [.table slot] ++ [w] ++ [v]) m) (hb : b ≤ s.length)
    (hkey : m.heap.key? w = none) : ∃ e, rawSet (.fromTop 3) m = .error e m := by
  have hstore : ∃ e, rawStore slot w v m = .error e m := by
    rw [rawStore, run_bind, run_get]
    dsimp only
    rw [hkey]
    cases w with
    | nil | bool | float | int | string | light | object | foreign => exact ⟨_, rfl⟩
  obtain ⟨e, he⟩ := hstore
  exact ⟨e, by rw [rawSet_below hl hb, run_bind, he]⟩

end Op

/-! ## Elements -/

namespace Reading

open Format (Role)

variable {start m m' : Machine} {host : Host} {ρ ρ' : Nat → Ref} {made : List Made} {xs ys : List Datum}
  {vs : List Value} {σ τ : Supply} {c : Contribution} {mode : Mode} {depth id n : Nat}
  {args rest : List Argument}

/-- The table on top, which elements add to: its number and its place. -/
structure Onto (start : Machine) (id n : Nat) (xs : List Datum) (vs : List Value) : Prop where
  value : ∃ slot, vs.getLast? = some (.table slot)
  datum : xs.getLast? = some (.object id)
  position : start.base + n = start.stack.size + vs.length

/-- A value that an element of a table left on top is appended to the table. -/
theorem stored (hb : Built start made ρ xs vs m) (hadded : Added start τ ρ' xs vs m' c)
    (honto : c ≠ .nothing → Onto start id n xs vs) :
    ∃ m'', Built start (τ.contribute id c).made ρ' xs vs m'' ∧
      ∀ {y : Reading Unit} {m₃}, Yields y host args m'' () rest m₃ →
        Yields (if m.top < m'.top then do
            orFail .unclosedTable (Op.append (.fromBottom n))
            y
          else y) host args m' () rest m₃ := by
  have htop := hb.laid.top
  have hframed := hb.framed
  rw [Machine.Framed] at hframed
  rw [List.length_append, Array.length_toList] at htop
  cases c with
  | nothing =>
      have hb' : Built start τ.made ρ' xs vs m' := hadded
      have htop' := hb'.laid.top
      rw [List.length_append, Array.length_toList] at htop'
      refine ⟨m', by rw [Supply.contribute_nothing]; exact hb', fun hy => ?_⟩
      rw [if_neg (by omega)]
      exact hy
  | value x =>
      obtain ⟨v, hb'⟩ := hadded
      obtain ⟨⟨slot, hlast⟩, hid, hn⟩ := honto (by simp)
      obtain ⟨id', hid', hb''⟩ := hb'.append hlast
      obtain rfl : id' = id := Datum.object.inj (Option.some.inj (hid'.symm.trans hid))
      have htop' := hb'.laid.top
      simp only [List.length_append, Array.length_toList, List.length_singleton] at htop'
      refine ⟨_, hb'', fun hy => ?_⟩
      rw [if_pos (by omega)]
      refine .bind (a := ()) (.orFail ?_) hy
      obtain ⟨below, rfl⟩ := List.getLast?_eq_some_iff.mp hlast
      have hl := hb'.laid
      rw [← List.append_assoc, ← List.append_assoc] at hl
      rw [List.length_append, List.length_singleton] at hn
      refine Op.append_eq hl ?_ ?_ <;> rw [List.length_append, Array.length_toList] <;> omega
  | entry key x =>
      obtain ⟨id', hid', hb'⟩ := hadded
      obtain ⟨-, hid, -⟩ := honto (by simp)
      obtain rfl : id' = id := Datum.object.inj (Option.some.inj (hid'.symm.trans hid))
      have htop' := hb'.laid.top
      rw [List.length_append, Array.length_toList] at htop'
      refine ⟨m', hb', fun hy => ?_⟩
      rw [if_neg (by omega)]
      exact hy

/-- A pair that is not suppressed is stored in the table below it. -/
theorem pair_stored (host : Host) (args : List Argument) {x₀ x : Datum} {v w : Value} {key : Datum}
    {slot : Nat} (hb : Built start σ.made ρ (xs ++ [x₀] ++ [x]) (vs ++ [w] ++ [v]) m)
    (hlast : vs.getLast? = some (.table slot)) (hkey : x₀.key? = some key) (hx : x ≠ .nil) :
    ∃ m', Yields (orFail .nullKey (Op.rawSet (.fromTop 3))) host args m () args m' ∧
      Added start σ ρ xs vs m' (.entry key x) := by
  obtain ⟨id, k, hid, hk, hb'⟩ := hb.insert hlast hkey hx
  refine ⟨_, .orFail ?_, id, hid, hb'⟩
  obtain ⟨below, rfl⟩ := List.getLast?_eq_some_iff.mp hlast
  have hl := hb.laid
  have hframed := hb.framed
  rw [Machine.Framed] at hframed
  rw [← List.append_assoc, ← List.append_assoc, ← List.append_assoc] at hl
  refine Op.rawSet_eq hl ?_ hk
  rw [List.length_append, Array.length_toList]
  omega

/-- Reading an element adds what it contributes, where it may need a table to add to. -/
def Adds (host : Host) (start : Machine) (mode : Mode) (inside : Prop) (e : Element) : Prop :=
  ∀ ⦃m ρ xs vs σ τ c⦄, Built start σ.made ρ xs vs m →
    e.denote (!mode.suppressed) σ = some (c, τ) →
    (mode.asKey = true → e.isRefused σ.args = false ∧ c ≠ .value .nil) →
    (inside → mode.suppressed = false → ∃ slot, vs.getLast? = some (.table slot)) →
    ∃ ρ' m', Yields (element mode e) host σ.args m () τ.args m' ∧ Added start τ ρ' xs vs m' c

/-- Reading the elements of a table adds what they contribute, one after another. -/
def AddsAll (host : Host) (start : Machine) (mode : Mode) (es : List Element) : Prop :=
  ∀ ⦃m ρ xs vs σ τ id n⦄, Built start σ.made ρ xs vs m →
    Element.denoteItems (!mode.suppressed) id es σ = some τ →
    (mode.suppressed = false → Onto start id n xs vs) →
    ∃ ρ' m', Yields (items mode (.fromBottom n) es) host σ.args m () τ.args m' ∧
      Built start τ.made ρ' xs vs m'

theorem addsAll_nil : AddsAll host start mode [] := by
  intro m ρ xs vs σ τ id n hb hdenote _
  rw [Element.denoteItems] at hdenote
  cases hdenote
  rw [items]
  exact ⟨ρ, m, .pure (), hb⟩

theorem addsAll_cons {inside : Prop} {e : Element} {es : List Element} (hplain : mode.asKey = false)
    (he : Adds host start mode inside e) (hes : AddsAll host start mode es) :
    AddsAll host start mode (e :: es) := by
  intro m ρ xs vs σ τ id n hb hdenote honto
  rw [Element.denoteItems] at hdenote
  split at hdenote
  · cases hdenote
  · rename_i c υ hfirst
    obtain ⟨ρ₁, m₁, hrun, hadded⟩ := he hb hfirst (by simp [hplain]) fun _ hlive => (honto hlive).value
    have honto' : c ≠ .nothing → Onto start id n xs vs := fun hc => honto (by
      by_contra hsuppressed
      rw [Bool.not_eq_false] at hsuppressed
      rw [hsuppressed] at hfirst
      exact hc (Element.denote_false hfirst))
    obtain ⟨m₂, hb₂, hstored⟩ := stored hb hadded honto'
    obtain ⟨ρ', m', hrest, hb'⟩ := hes hb₂ hdenote honto
    rw [items]
    exact ⟨ρ', m', .bind .machine (.bind hrun (.bind .machine (hstored hrest))), hb'⟩

theorem adds_table {inside : Prop} {es : List Element}
    (hes : AddsAll host start { mode with asKey := false } es) :
    Adds host start mode inside (.table es) := by
  intro m ρ xs vs σ τ c hb hdenote _ _
  rw [Element.denote] at hdenote
  rw [element]
  by_cases hmode : mode.suppressed = true
  · rw [hmode, Bool.not_true, if_neg Bool.false_ne_true, Option.map_eq_some_iff] at hdenote
    obtain ⟨υ, hitems, heq⟩ := hdenote
    cases heq
    obtain ⟨ρ', m', hrun, hb'⟩ := hes (n := m.top) hb (by rw [hmode]; exact hitems)
      (by simp [hmode])
    have hemit : Yields (emit mode Act.newTable) host σ.args m () σ.args m := by
      rw [emit, if_pos hmode]
      exact .pure ()
    exact ⟨ρ', m', .bind hemit (.bind .machine hrun), hb'⟩
  · rw [Bool.not_eq_true] at hmode
    rw [hmode, Bool.not_false, if_pos rfl, Option.map_eq_some_iff] at hdenote
    obtain ⟨υ, hitems, heq⟩ := hdenote
    cases heq
    obtain ⟨ρ₁, slot, m₁, hnew, hb₁⟩ := hb.newTable host
    have honto : Onto start σ.made.length m₁.top (xs ++ [.object σ.made.length])
        (vs ++ [.table slot]) := by
      have hframed := hb.framed
      rw [Machine.Framed] at hframed
      refine ⟨⟨slot, by simp⟩, by simp, ?_⟩
      rw [hb₁.laid.top]
      simp only [List.length_append, Array.length_toList, List.length_singleton]
      omega
    obtain ⟨ρ', m', hrun, hb'⟩ := hes (σ := { σ with made := σ.made ++ [.table ∅] }) hb₁
      (by rw [hmode]; exact hitems) fun _ => honto
    have hemit : Yields (emit mode Act.newTable) host σ.args m () σ.args m₁ := by
      rw [emit, if_neg (by simp [hmode])]
      exact .perform hnew
    exact ⟨ρ', m', .bind hemit (.bind .machine hrun), _, hb'⟩

theorem adds_condition {inside : Prop} {e : Element} (hplain : mode.asKey = false)
    (he : ∀ suppressed, Adds host start { mode with suppressed } inside e) :
    Adds host start mode inside (.condition e) := by
  intro m ρ xs vs σ τ c hb hdenote _ htable
  obtain ⟨b, args, hargs, hdenote⟩ := Element.denote_condition hdenote
  have hlive : (!mode.suppressed && b) = !(mode.suppressed || !b) := by simp
  rw [hlive] at hdenote
  obtain ⟨ρ', m', hrun, hadded⟩ := he (mode.suppressed || !b) (σ := { σ with args }) hb hdenote
    (by simp [hplain]) fun hinside hopen => htable hinside (Bool.or_eq_false_iff.mp hopen).1
  rw [element, hargs]
  exact ⟨ρ', m', .bind .condition hrun, hadded⟩

theorem adds_pair {key value : Element} (hoperand : key.isOperand = true)
    (hkey : Adds host start { mode with asKey := true } False key)
    (hvalue : Adds host start { mode with asKey := false } False value) :
    Adds host start mode True (.pair key value) := by
  intro m ρ xs vs σ τ c hb hdenote _ htable
  obtain ⟨k, v, υ, hrefused, hk, hv, hpair⟩ := Element.denote_pair hdenote
  have hnil : k ≠ .value .nil := by
    rintro rfl
    rcases Contribution.pair_eq_some hpair with ⟨h, -⟩ | ⟨_, _, _, h, -, -, hx, -⟩
    · cases h
    · cases h
      cases hx
  obtain ⟨ρ₁, m₁, hrun, hadded⟩ := hkey hb hk (fun _ => ⟨hrefused, hnil⟩) False.elim
  rw [element]
  rcases Contribution.pair_eq_some hpair with
    ⟨rfl, rfl, rfl⟩ | ⟨x₀, x, k, rfl, rfl, rfl, hx₀, hx⟩
  · -- An operand contributes nothing only where it is suppressed.
    have hsuppressed : mode.suppressed = true := by
      by_contra hopen
      rw [Bool.not_eq_true] at hopen
      rw [hopen] at hk
      obtain ⟨_, h⟩ := Element.denote_operand hoperand hk
      cases h
    obtain ⟨ρ₂, m₂, hrun', hadded'⟩ := hvalue hadded hv (by simp) False.elim
    refine ⟨ρ₂, m₂, .bind hrun (.bind hrun' ?_), hadded'⟩
    rw [if_neg (by simp [hsuppressed])]
    exact .pure ()
  · have hopen : mode.suppressed = false := by
      by_contra hsuppressed
      rw [Bool.not_eq_false] at hsuppressed
      rw [hsuppressed] at hk
      cases Element.denote_false hk
    obtain ⟨w, hb₁⟩ := hadded
    obtain ⟨ρ₂, m₂, hrun', hadded'⟩ := hvalue hb₁ hv (by simp) False.elim
    obtain ⟨v, hb₂⟩ := hadded'
    obtain ⟨slot, hlast⟩ := htable trivial hopen
    obtain ⟨m₃, hstore, hadded⟩ := pair_stored host τ.args hb₂ hlast hx₀ hx
    refine ⟨ρ₂, m₃, .bind hrun (.bind hrun' ?_), hadded⟩
    rw [if_pos (by simp [hopen])]
    exact hstore

theorem Adds.mono {inside inside' : Prop} {e : Element} (h : Adds host start mode inside e)
    (himp : inside → inside') : Adds host start mode inside' e := by
  intro m ρ xs vs σ τ c hb hdenote hkey htable
  exact h hb hdenote hkey fun hinside => htable (himp hinside)

mutual
/-- Every well-formed element adds what it contributes. Pairs need the table that they stand in. -/
theorem adds (host : Host) (start : Machine) (mode : Mode) (e : Element) {depth : Nat} {role : Role}
    (he : e.WellFormed depth role) (hmode : mode.asKey = true → role = .key) :
    Adds host start mode (0 < depth ∧ role = .plain) e := by
  cases he with
  | scalar hd =>
      intro m ρ xs vs σ τ c hb hdenote hkey _
      rw [Element.denote] at hdenote
      rw [element]
      exact scalar_added hb hdenote hkey
  | table hdepth hes => exact adds_table (addsAll host start _ _ hes rfl)
  | condition he =>
      have hplain : mode.asKey = false := by
        rw [← Bool.not_eq_true]
        exact fun h => nomatch hmode h
      exact adds_condition hplain fun suppressed => adds host start { mode with suppressed } _ he hmode
  | pair hdepth hkey hvalue =>
      have hkeyAdds := adds host start { mode with asKey := true } _ hkey fun _ => rfl
      have hvalueAdds := adds host start { mode with asKey := false } _ hvalue nofun
      exact (adds_pair (hkey.isOperand nofun) (hkeyAdds.mono fun h => nomatch h.2)
        (hvalueAdds.mono fun h => nomatch h.2)).mono fun _ => ⟨hdepth, rfl⟩
termination_by sizeOf e

theorem addsAll (host : Host) (start : Machine) (mode : Mode) (es : List Element) {depth : Nat}
    (hes : ∀ e ∈ es, e.WellFormed depth .plain) (hplain : mode.asKey = false) :
    AddsAll host start mode es := by
  cases es with
  | nil => exact addsAll_nil
  | cons e es =>
      have hfirst := adds host start mode e (hes e List.mem_cons_self) (by simp [hplain])
      have hrest := addsAll host start mode es (fun e he => hes e (List.mem_cons_of_mem _ he)) hplain
      exact addsAll_cons hplain hfirst hrest
termination_by sizeOf es
end

/-! ## Formats -/

/-- Elements outside of tables push what they denote. -/
theorem all_pushes (host : Host) {start m : Machine} {ρ : Nat → Ref} {xs ys : List Datum}
    {vs : List Value} {σ τ : Supply} (n : Nat) (es : List Element)
    (hes : ∀ e ∈ es, e.WellFormed 0 .plain) (hb : Built start σ.made ρ xs vs m)
    (hdenote : Element.denoteAll es σ = some (ys, τ)) :
    ∃ ρ' ws m', Yields (all { start := n } es) host σ.args m () τ.args m' ∧
      Built start τ.made ρ' (xs ++ ys) (vs ++ ws) m' := by
  induction es generalizing m ρ xs ys vs σ with
  | nil =>
      rw [Element.denoteAll] at hdenote
      cases hdenote
      exact ⟨ρ, [], m, .pure (), by simpa using hb⟩
  | cons e es ih =>
      have hrest : ∀ e ∈ es, e.WellFormed 0 .plain := fun e he => hes e (List.mem_cons_of_mem _ he)
      have hadds := adds host start { start := n } e (hes e List.mem_cons_self) nofun
      rw [Element.denoteAll] at hdenote
      split at hdenote
      · rename_i υ hfirst
        obtain ⟨ρ₁, m₁, hrun, hb₁⟩ := hadds hb hfirst nofun fun h => (Nat.lt_irrefl 0 h.1).elim
        obtain ⟨ρ', ws, m', hrun', hb'⟩ := ih hrest hb₁ hdenote
        exact ⟨ρ', ws, m', .bind hrun hrun', hb'⟩
      · rename_i x υ hfirst
        obtain ⟨ρ₁, m₁, hrun, v, hb₁⟩ := hadds hb hfirst nofun fun h => (Nat.lt_irrefl 0 h.1).elim
        obtain ⟨⟨zs, _⟩, hlater, heq⟩ := Option.map_eq_some_iff.mp hdenote
        cases heq
        obtain ⟨ρ', ws, m', hrun', hb'⟩ := ih hrest hb₁ hlater
        refine ⟨ρ', v :: ws, m', .bind hrun hrun', ?_⟩
        rw [List.append_cons, List.append_cons vs]
        exact hb'
      · cases hdenote

end Reading

namespace Machine

variable {m : Machine}

/-- Marshaling well-formed elements that arguments match pushes the data that they denote, with
    tables that are new, and changes nothing else that the roots reach. -/
theorem Reachable.marshal_denotes (hm : m.Reachable) (hquiet : m.NoFinalizers) (host : Host)
    {es : List Element} (hes : ∀ e ∈ es, e.WellFormed 0 .plain) {args : List Argument}
    {xs : List Datum} {σ : Supply} (hdenote : Element.denoteAll es { args } = some (xs, σ)) :
    ∃ ρ vs m', Act.marshal (Element.listDirectives es) args host m = .ok xs.length m' ∧
      m.Built σ.made ρ xs vs m' := by
  have hstart := built_self (ρ := default) hm.framed hm.heap_sound hm.named.sound hquiet
  obtain ⟨ρ, vs, m', hrun, hb⟩ := Reading.all_pushes host (σ := { args }) (m.top + 1) es hes hstart
    hdenote
  have hread : StateT.run (ExceptT.run (Reading.all { start := m.top + 1 } es)) args host m =
      .ok (.ok (), σ.args) m' := hrun
  have hformat : Reading.format (m.top + 1) (Element.listDirectives es) args host m = .ok none m' := by
    rw [Reading.format, Format.elements_listDirectives hes]
    exact Act.bind_ok hread
  have hcount : m'.top - m.top = xs.length := by
    have hframed := hm.framed
    rw [Framed] at hframed
    have hlength := hb.agrees.values.length_eq
    have htop := hb.laid.top
    simp only [List.nil_append, List.length_append, Array.length_toList] at hlength htop
    rw [htop, hlength, Machine.top]
    omega
  refine ⟨ρ, vs, m', ?_, hb⟩
  rw [Act.marshal, Act.run_bind, Act.run_get]
  have hsafe : (Act.safely (Reading.format (m.top + 1) (Element.listDirectives es) args) :
      Act FormatError (Option FormatError)) host m = .ok none m' := by
    rw [Act.safely, Act.run_mapError, hformat]
  refine (Act.bind_ok hsafe).trans ?_
  dsimp only
  rw [Act.run_bind, Act.run_get, ← hcount]
  rfl

theorem noFinalizers_create (limits : Limits) : (create limits).NoFinalizers := by
  rintro mt ⟨slot, u, hu, -⟩
  simp [create, Heap.userdata?, Heap.newTable, Arena.get?] at hu

/-- A table whose entry for 2 comes before its positions. -/
def interleaved : List Element :=
  [.table [.pair (.scalar .integer) (.scalar .boolean), .scalar .integer,
    .condition (.scalar .integer), .scalar .integer]]

/-- The entry is true; of the positions 7, 8 and 9 the second is suppressed. -/
def interleavedArguments : List Argument :=
  [.int 2, .bool true, .int 7, .bool false, .int 8, .int 9]

def interleavedSupply : Supply :=
  { args := []
    made := [.table (((AList.insert (.int 2) (.bool true) (∅ : Entries)).insert (.int 1) (.int 7)).insert
      (.int 3) (.int 9))] }

theorem interleaved_wellFormed : ∀ e ∈ interleaved, e.WellFormed 0 .plain := by
  intro e he
  obtain rfl := List.mem_singleton.mp he
  refine .table (by decide) fun e he => ?_
  simp only [List.mem_cons, List.not_mem_nil, or_false] at he
  rcases he with rfl | rfl | rfl | rfl
  · exact .pair (by decide) (.scalar rfl) (.scalar rfl)
  · exact .scalar rfl
  · exact .condition (.scalar rfl)
  · exact .scalar rfl

theorem denoteAll_interleaved : Element.denoteAll interleaved { args := interleavedArguments } =
    some ([.object 0], interleavedSupply) := rfl

theorem interleaved_marshal_denotes :
    (create {}).Reachable ∧ (create {}).NoFinalizers ∧ (∀ e ∈ interleaved, e.WellFormed 0 .plain) ∧
      ∃ ρ vs m', Act.marshal (Element.listDirectives interleaved) interleavedArguments
        { enter := fun _ => pure 0 } (create {}) = .ok 1 m' ∧
        (create {}).Built interleavedSupply.made ρ [.object 0] vs m' :=
  ⟨reachable_create {}, noFinalizers_create {}, interleaved_wellFormed,
    (reachable_create {}).marshal_denotes (noFinalizers_create {}) _ interleaved_wellFormed
      denoteAll_interleaved⟩

end Machine

end ScriptHost
