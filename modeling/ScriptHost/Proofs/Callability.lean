import ScriptHost.Proofs.Library
import ScriptHost.Proofs.Resolution

/-! # What can be called

A look at a value tells whether a call of it will find a function, as long as the `__call` field of its
metatable is a function or missing. Any other field is taken for one, and a call of the value fails.
-/

namespace ScriptHost

namespace Machine

variable {m : Machine} {i : StackIndex} {v : Value} {args : List Value} {g position : Nat} {b : Behaviour}
  {entered : Machine}

/-- A value and arguments for it lie on top. -/
def poised (m : Machine) (v : Value) (args : List Value) : Machine := args.foldl push (m.push v)

/-- The metatable of a value has a `__call` field that is no function. -/
def Miscalled (m : Machine) (v : Value) : Prop :=
  (m.metafield v .call).isNil = false ∧ ∀ g, m.metafield v .call ≠ .function g

theorem poised_eq : m.poised v args = { m with stack := (m.stack.toList ++ v :: args).toArray } := by
  rw [poised, foldl_push]
  simp [push]

theorem laid_poised : Laid m.base (m.stack.toList ++ v :: args) (m.poised v args) := by
  rw [poised_eq]
  exact ⟨rfl, rfl⟩

@[simp] theorem heap_poised : (m.poised v args).heap = m.heap := by rw [poised_eq]

@[simp] theorem metafield_poised {w : Value} {f : Metafield} :
    (m.poised v args).metafield w f = m.metafield w f := by
  rw [poised_eq]
  rfl

theorem poised_at : (m.poised v args).stack[m.stack.size]? = some v := by
  rw [← Array.length_toList]
  exact laid_poised.getElem?

/-! ## The look at a value -/

theorem Named.getMetafield (hm : m.Named) (i : StackIndex) (f : Metafield) : m.getMetafield i f.text =
    if (m.metafield (m.value i) f).isNil then (none, m)
    else (some (m.metafield (m.value i) f).kind, m.push (m.metafield (m.value i) f)) := by
  rw [Machine.getMetafield, (StringPool.find?_eq_some hm.sound).mpr (hm.names f)]
  rfl

/-- The look takes functions and all that has a `__call` field, and changes nothing. -/
theorem isCallable_eq (hm : m.Named) (hframed : m.Framed) (i : StackIndex) : m.isCallable i =
    (decide ((m.value i).kind = .function) || !(m.metafield (m.value i) .call).isNil, m) := by
  have hpop : ∀ v, (m.push v).pop 1 = m := fun v => pop_push hframed
  unfold isCallable
  dsimp only
  rw [hm.getMetafield, value_absolute]
  by_cases hfunction : (m.value i).kind = .function
  · simp [hfunction]
  · cases hfield : (m.metafield (m.value i) .call).isNil <;> simp [hfunction, hpop]

theorem isCallable_iff (hm : m.Named) (hframed : m.Framed) : (m.isCallable i).1 = true ↔
    (m.value i).kind = .function ∨ (m.metafield (m.value i) .call).isNil = false := by
  rw [isCallable_eq hm hframed]
  simp

end Machine

namespace Act

open Machine

variable {host : Host} {m called : Machine} {i : StackIndex} {v : Value} {args : List Value} {g position : Nat}

/-! ## The call -/

theorem metafield_function {f : Metafield} : m.metafield (.function g) f = .nil := rfl

theorem function_present (hg : m.heap.Present (.function g)) : ∃ fn, m.heap.function? g = some fn :=
  Option.ne_none_iff_exists'.mp fun hnone => Heap.present_object.mp hg (Option.map_eq_none_iff.mpr hnone)

theorem callee_field (hat : called.stack[position]? = some v) (hfield : called.metafield v .call = .function g) :
    callee position called = .ok g (called.insertAt position (.function g)) := by
  have hother : ∀ slot, v ≠ .function slot := fun slot hv => by
    rw [hv, metafield_function] at hfield
    cases hfield
  rw [callee_other (by rw [hat]; rfl) hother, hfield]

theorem callee_refused (hat : called.stack[position]? = some v) (hv : ∀ g, v ≠ .function g)
    (hfield : ∀ g, called.metafield v .call ≠ .function g) :
    callee position called = .error (.ofFault (.notCallable (called.describe v))) called := by
  rw [callee_other (by rw [hat]; rfl) hv]
  split
  · exact absurd ‹_› (hfield _)
  · rfl

/-- Below the limits a call enters a function just where it finds one, in the value or in its `__call` field. -/
theorem enters_iff (hroom : called.atLimit = false) (hat : called.stack[position]? = some v)
    (hv : called.heap.Present v) (hfield : called.heap.Present (called.metafield v .call)) :
    (∃ b entered, Enters position called b entered) ↔
      ∃ g, v = .function g ∨ called.metafield v .call = .function g := by
  constructor
  · rintro ⟨-, -, -, hcallee, -⟩
    by_contra hnone
    push Not at hnone
    rw [callee_refused hat (fun g => (hnone g).1) fun g => (hnone g).2] at hcallee
    cases hcallee
  · rintro ⟨g, rfl | hg⟩
    · obtain ⟨fn, hf⟩ := function_present hv
      exact ⟨_, _, .intro hroom (callee_function hat) hf⟩
    · obtain ⟨fn, hf⟩ := function_present (hg ▸ hfield)
      exact ⟨_, _, .intro hroom (callee_field hat hg) hf⟩

/-- A call that finds none fails and leaves everything as it was. -/
theorem callAt_refused (hroom : called.atLimit = false) (hat : called.stack[position]? = some v)
    (hnone : ¬ ∃ g, v = .function g ∨ called.metafield v .call = .function g) (wanted : Int) :
    callAt position wanted host called = .error (.ofFault (.notCallable (called.describe v))) called := by
  push Not at hnone
  rw [callAt, invoke_eq, if_neg (by simp [hroom]), callee_refused hat (fun g => (hnone g).1) fun g => (hnone g).2]

end Act

namespace Machine

variable {m : Machine} {i : StackIndex} {v : Value} {args : List Value}

/-- The kind of a value that the library made is that of a function only for functions. -/
theorem kind_eq_function (hv : ∀ w, v ≠ .foreign w) : v.kind = .function ↔ ∃ g, v = .function g := by
  constructor
  · intro h
    cases v with
    | object r =>
        obtain ⟨kind, slot⟩ := r
        cases kind with
        | function => exact ⟨slot, rfl⟩
        | table | userdata | boxed => cases h
    | foreign w => exact absurd rfl (hv w)
    | nil | bool | float | int | string | light => cases h
  · rintro ⟨g, rfl⟩
    rfl

/-- Whether a value can be called is told as a call of it decides, and the look leaves no trace. Only a
    `__call` field that is no function is taken for one: a call of such a value enters nothing and fails. -/
theorem Reachable.isCallable_calls (hm : m.Reachable) (hi : m.Intact) (i : StackIndex) (args : List Value)
    (hmade : ∀ w, m.value i ≠ .foreign w) (hroom : (m.poised (m.value i) args).atLimit = false) :
    (m.isCallable i).2 = m ∧
    (¬ m.Miscalled (m.value i) → ((m.isCallable i).1 = true ↔
      ∃ b entered, Act.Enters m.stack.size (m.poised (m.value i) args) b entered)) ∧
    (m.Miscalled (m.value i) → (m.isCallable i).1 = true ∧
      ¬ ∃ b entered, Act.Enters m.stack.size (m.poised (m.value i) args) b entered) ∧
    (∀ b entered, Act.Enters m.stack.size (m.poised (m.value i) args) b entered → ∀ host wanted,
      (Act.call args.length wanted).Calls host (m.poised (m.value i) args) b entered) ∧
    ((¬ ∃ b entered, Act.Enters m.stack.size (m.poised (m.value i) args) b entered) → ∀ host wanted,
      Act.call args.length wanted host (m.poised (m.value i) args) =
        .error (.ofFault (.notCallable ((m.poised (m.value i) args).describe (m.value i))))
          (m.poised (m.value i) args)) := by
  have hat : (m.poised (m.value i) args).stack[m.stack.size]? = some (m.value i) := poised_at
  have hfield : (m.poised (m.value i) args).metafield (m.value i) .call = m.metafield (m.value i) .call :=
    metafield_poised
  have hfinds : (∃ b entered, Act.Enters m.stack.size (m.poised (m.value i) args) b entered) ↔
      ∃ g, m.value i = .function g ∨ m.metafield (m.value i) .call = .function g := by
    rw [Act.enters_iff hroom hat (by rw [heap_poised]; exact hi.value i)
      (by rw [heap_poised, hfield]; exact hi.metafield _ .call), hfield]
  have hposition : (m.poised (m.value i) args).functionBelow? args.length = some m.stack.size := by
    have hlaid : Laid m.base (m.stack.toList ++ m.value i :: args) (m.poised (m.value i) args) := laid_poised
    have hbelow := Act.functionBelow?_laid hlaid (by rw [Array.length_toList]; exact hm.framed)
    rwa [Array.length_toList] at hbelow
  have htold := isCallable_iff (i := i) hm.named hm.framed
  rw [kind_eq_function hmade] at htold
  refine ⟨by rw [isCallable_eq hm.named hm.framed], fun htidy => ?_, fun hodd => ?_, fun b entered henters =>
    henters.calls hposition, fun hnone host wanted => ?_⟩
  · rw [htold, hfinds]
    constructor
    · rintro (⟨g, hg⟩ | hfield)
      · exact ⟨g, .inl hg⟩
      · by_contra hnone
        push Not at hnone
        exact htidy ⟨hfield, fun g => (hnone g).2⟩
    · rintro ⟨g, hg | hg⟩
      · exact .inl ⟨g, hg⟩
      · exact .inr (hg ▸ rfl)
  · rw [htold, hfinds]
    refine ⟨.inr hodd.1, ?_⟩
    rintro ⟨g, hg | hg⟩
    · have hno := hodd.1
      rw [hg, Act.metafield_function] at hno
      cases hno
    · exact hodd.2 g hg
  · rw [hfinds, ← hfield] at hnone
    rw [call_position hposition, Act.callAt_refused hroom hat hnone]

/-- A table that has a number for its `__call` field is told to be callable, and calls of it fail. -/
theorem miscalled_isCallable : (ownMeta [(.call, .int 5)]).Reachable ∧
    ((ownMeta [(.call, .int 5)]).isCallable (.fromBottom 1)).1 = true ∧
    ∀ host wanted, ∃ e, Act.call 0 wanted host ((ownMeta [(.call, .int 5)]).push (.table 2)) =
      .error e ((ownMeta [(.call, .int 5)]).push (.table 2)) := by
  obtain ⟨hm, hi⟩ := ownMeta_sound [(.call, .int 5)] (by
    simp only [List.mem_singleton, forall_eq]
    exact Heap.present_of_ref? rfl)
  have hodd : (ownMeta [(.call, .int 5)]).Miscalled ((ownMeta [(.call, .int 5)]).value (.fromBottom 1)) := by
    have hfield : (ownMeta [(.call, .int 5)]).metafield ((ownMeta [(.call, .int 5)]).value (.fromBottom 1)) .call =
        .int 5 := by decide
    rw [Miscalled, hfield]
    exact ⟨rfl, fun g hg => by cases hg⟩
  obtain ⟨-, -, htold, -, hfails⟩ := hm.isCallable_calls hi (.fromBottom 1) []
    (fun w hw => by cases hw) (by decide)
  exact ⟨hm, (htold hodd).1, fun host wanted => ⟨_, hfails (htold hodd).2 host wanted⟩⟩

end Machine

end ScriptHost
