import ScriptHost.Proofs.Inspection

/-! # Taking targets

A boxed instance takes its target in one assignment, from the hook of its class or from the host. What is
taken lies behind the source, or is a new object; where the source is refused nothing is assigned.
-/

namespace ScriptHost

open Machine

namespace Machine

/-- What is taken for an instance: what lies behind a value, or nothing, or a new object. -/
inductive Taken (m : Machine) (v : Value) : Machine → Address → Prop where
  | found {m' new} : m.Back m' → new = 0 ∨ m.Behind v new → Taken m v m' new
  | fresh : Taken m v (m.newCounted .anonymous 0).2 (m.newCounted .anonymous 0).1

end Machine

namespace Act

variable {programs : Programs} {k : Nat} {m : Machine} {source : StackIndex} {v : Value}

/-- The object behind a value, if there is a value. -/
theorem objectOrNil_ended (hm : m.Framed) (hguards : m.guards = []) (hready : m.Ready)
    (hvalue : m.value (m.absolute source) = v) (hv : m.Proper v) :
    Ended (fun found m' => m.Back m' ∧ (found.getD 0 = 0 ∨ m.Behind v (found.getD 0))) m.Passes
      (objectOrNil .shared source (programs.host (k + 1)) m) := by
  rw [objectOrNil, run_bind, run_get]
  dsimp only
  rw [hvalue]
  by_cases hnil : v = .nil
  · rw [if_pos (by rw [hnil]; rfl)]
    exact ⟨.refl m, .inl rfl⟩
  · rw [if_neg (by cases v <;> simp_all [Value.isNil])]
    refine (objectAt_ended hm hguards hready (pins_absolute hvalue hnil) hv).next ?_ fun _ h => h
    rintro a m₁ ⟨hback, hbehind⟩
    exact ⟨hback, .inr hbehind⟩

/-- The host assigns the object behind a value to a boxed instance, or nothing happens but the search. -/
theorem setSharedFrom_ended (programs : Programs) (k : Nat) (i source : StackIndex) (replacing : Bool)
    (hm : m.Framed) (hguards : m.guards = []) (hready : m.Ready)
    (hvalue : m.value (m.absolute source) = v) (hv : m.Proper v) :
    Ended (fun _ m' => ∃ block new m₁, m.address? (m.value (m.absolute i)) = some block ∧ m.Back m₁ ∧
        (new = 0 ∨ m.Behind v new) ∧ m' = m₁.reassign block new replacing) m.Passes
      (setSharedFrom i source replacing (programs.host (k + 1)) m) := by
  rw [setSharedFrom, run_bind, run_get]
  dsimp only
  refine (objectOrNil_ended hm hguards hready hvalue hv).next ?_ fun _ h => h
  rintro found m₁ ⟨hback, hfound⟩
  have haddress : m₁.address? (m₁.value (m.absolute i)) = m.address? (m.value (m.absolute i)) := by
    rw [hback.value]
    exact address?_passes hback.passes
  change Ended _ _ (Op.setSharedTarget (m.absolute i) (found.getD 0) replacing m₁)
  cases hblock : m.address? (m.value (m.absolute i)) with
  | none =>
      obtain ⟨e, hfail⟩ := Op.setSharedTarget_error (haddress.trans hblock)
      rw [hfail]
      exact hback.passes
  | some block =>
      rw [Op.setSharedTarget_eq (haddress.trans hblock)]
      exact ⟨block, found.getD 0, m₁, rfl, hback, hfound, rfl⟩

/-- The hooks that take a target for a new instance. -/
def takers : List Hook := [.adoptFresh, .shareTarget, .retainSource, .retainSourceOrNull]

/-- A hook assigns to the instance what it takes, or fails before. -/
theorem runHook_ended {h : Hook} {block : Address} (hh : h ∈ takers) (hm : m.Framed) (hguards : m.guards = [])
    (hready : m.Ready) (hself : m.address? (m.value (.fromBottom 1)) = some block)
    (hvalue : m.value (.fromBottom 2) = v) (hv : m.Proper v) (hbox : h = .shareTarget → ∀ a, v ≠ .light a) :
    Ended (fun _ m' => ∃ m₁ new, m.Taken v m₁ new ∧ m' = m₁.reassign block new false) m.Passes
      (runHook h (programs.host (k + 1)) m) := by
  have hassign : ∀ {m₁ : Machine} {new : Address}, m.Taken v m₁ new →
      m₁.address? (m₁.value (.fromBottom 1)) = some block →
      Ended (fun _ m' => ∃ m₁ new, m.Taken v m₁ new ∧ m' = m₁.reassign block new false) m.Passes
        (Op.setSharedTarget (.fromBottom 1) new false m₁) := by
    intro m₁ new htaken haddress
    rw [Op.setSharedTarget_eq haddress]
    exact ⟨m₁, new, htaken, rfl⟩
  simp only [takers, List.mem_cons, List.not_mem_nil, or_false] at hh
  rcases hh with rfl | rfl | rfl | rfl
  · rw [runHook]
    dsimp only
    rw [run_bind, run_modifyGet]
    exact (hassign .fresh hself).next (fun _ _ h => h) fun _ h => h
  · rw [runHook]
    dsimp only
    cases haddress : m.address? v with
    | none =>
        have hnone : m.address? (m.value (.fromBottom 2)) = none := by rw [hvalue, haddress]
        obtain ⟨e, hfail⟩ := Op.blockAt_error hnone
        have hnone : Op.boxTarget (.fromBottom 2) m = .error e m := by rw [Op.boxTarget, Op.bind_error hfail]
        rw [run_bind, run_lift, hnone]
        exact .refl m
    | some a =>
        obtain ⟨slot, u, rfl, hu⟩ : ∃ slot u, v = .userdata slot ∧ m.heap.userdata? slot = some u := by
          cases v with
          | object r =>
              obtain ⟨kind, slot⟩ := r
              cases kind with
              | userdata =>
                  obtain ⟨u, hu, -⟩ := Option.map_eq_some_iff.mp haddress
                  exact ⟨slot, u, rfl, hu⟩
              | table | function | boxed => cases haddress
          | light b => exact absurd rfl (hbox rfl b)
          | nil | bool | float | int | string | foreign => cases haddress
        have hbox : Op.boxTarget (.fromBottom 2) m = .ok (m.target u) m := by
          refine Op.boxTarget_eq ?_
          rw [hvalue, address?, hu]
          rfl
        rw [bind_ok (run_lift.trans hbox)]
        refine (hassign (.found (.refl m) ?_) hself).next (fun _ _ h => h) fun _ h => h
        by_cases hnull : m.target u = 0
        · exact .inl hnull
        · exact .inr ⟨hnull, .inr ⟨slot, u, rfl, hu, rfl⟩⟩
  · rw [runHook]
    dsimp only
    refine (objectAt_position hm hguards hready hvalue hv).next ?_ fun _ h => h
    rintro a m₁ ⟨hback, hbehind⟩
    have haddress : m₁.address? (m₁.value (.fromBottom 1)) = some block := by
      rw [hback.value, address?_passes hback.passes, hself]
    exact (hassign (.found hback (.inr hbehind)) haddress).next (fun _ _ h => h) fun _ h => h
  · rw [runHook]
    dsimp only
    refine (setSharedFrom_ended programs k (.fromBottom 1) (.fromBottom 2) false hm hguards hready hvalue hv).next ?_
      fun _ h => h
    rintro u m' ⟨block', new, m₁, hblock, hback, hnew, rfl⟩
    obtain rfl : block' = block := Option.some.inj (hblock.symm.trans hself)
    exact ⟨m₁, new, .found hback hnew, rfl⟩

end Act

end ScriptHost
