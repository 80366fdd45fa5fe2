import ScriptHost.Proofs.Lawful.Collect
import ScriptHost.Proofs.Occupancy
import ScriptHost.Proofs.States

/-! # Growth

Making objects and collecting others leaves what the roots reach as it was. A machine without
finalizers runs no code when it collects.
-/

namespace ScriptHost

namespace Heap

variable {β : Type} {h h₀ h' : Heap β} {r s : Ref} {c : Contents β}

/-- A heap with one more object, in a place that was empty. -/
structure Allocates (h h' : Heap β) (r : Ref) (c : Contents β) : Prop where
  change : h.Change h'
  fresh : h.contents? r = none
  contents : ∀ s, h'.contents? s = if s = r then some c else h.contents? s
  userdata : h'.userdata = h.userdata
  finalized : h'.finalized = h.finalized

theorem allocates_newTable (hh : h.Sound) :
    Allocates h h.newTable.2 ⟨.table, h.newTable.1⟩ (.table {}) :=
  ⟨.newTable, Allocation.contents?_ref hh (.table {}),
    fun _ => Allocation.contents?_run hh (.table {}), rfl, rfl⟩

theorem allocates_newFunction (hh : h.Sound) (f : Closure β) :
    Allocates h (h.newFunction f).2 ⟨.function, (h.newFunction f).1⟩ (.function f) :=
  ⟨.newFunction f, Allocation.contents?_ref hh (.function f),
    fun _ => Allocation.contents?_run hh (.function f), rfl, rfl⟩

theorem allocates_newBoxed (hh : h.Sound) (i : Int) :
    Allocates h (h.newBoxed i).2 ⟨.boxed, (h.newBoxed i).1⟩ (.boxed i) :=
  ⟨.newBoxed i, Allocation.contents?_ref hh (.boxed i),
    fun _ => Allocation.contents?_run hh (.boxed i), rfl, rfl⟩

theorem Allocates.object (h : Allocates h₀ h' r c) : h'.contents? r = some c := by
  rw [h.contents, if_pos rfl]

/-- The objects that were there are not touched. -/
theorem Allocates.keeps (h : Allocates h₀ h' r c) (hs : h₀.contents? s ≠ none) :
    h'.contents? s = h₀.contents? s := by
  rw [h.contents, if_neg]
  rintro rfl
  exact hs h.fresh

end Heap

namespace Machine

variable {m m' m'' : Machine} {r : Ref} {mt : Nat}

/-- An object that is there and that the roots reach. -/
def Has (m : Machine) (r : Ref) : Prop := m.Reached r ∧ m.heap.contents? r ≠ none

/-- A table in a slot is the metatable of a userdata that was not finalized. -/
def IsMetatable (m : Machine) (mt : Nat) : Prop :=
  ∃ slot u, m.heap.userdata? slot = some u ∧ m.heap.isFinalized slot = false ∧ u.metatable = some mt

/-- No metatable has an entry for the finalizer. -/
def NoFinalizers (m : Machine) : Prop :=
  ∀ mt, m.IsMetatable mt → ∃ t, m.heap.tables.get? mt = some t ∧
    (t.get (.string Metafield.finalizer.id)).isNil = true

/-- A machine that differs in its heap, where nothing that the roots reach has changed, and by more
    strings. -/
structure Grows (m m' : Machine) : Prop where
  others : ∃ heap strings events, m' = { m with heap, strings, events }
  contents : ∀ {r}, m.Has r → m'.heap.contents? r = m.heap.contents? r
  metatables : ∀ {mt}, m'.IsMetatable mt → m.IsMetatable mt ∧
    ∀ t, m.heap.tables.get? mt = some t → m'.heap.tables.get? mt = some t
  strings : ∀ {id : Nat} {bytes}, m.strings.strings[id]? = some bytes →
    m'.strings.strings[id]? = some bytes
  sound : m.heap.Sound → m'.heap.Sound
  pool : m.strings.Sound → m'.strings.Sound

theorem Grows.refl (m : Machine) : Grows m m :=
  ⟨⟨_, _, _, rfl⟩, fun _ => rfl, fun h => ⟨h, fun _ => id⟩, id, id, id⟩

theorem Grows.noFinalizers (h : Grows m m') (hm : m.NoFinalizers) : m'.NoFinalizers := by
  intro mt hmt
  obtain ⟨hold, hkeep⟩ := h.metatables hmt
  obtain ⟨t, ht, hnil⟩ := hm mt hold
  exact ⟨t, hkeep t ht, hnil⟩

theorem grows_intern (hm : m.strings.Sound) (bytes : Bytes) : Grows m (m.intern bytes).2 :=
  ⟨⟨_, _, _, rfl⟩, fun _ => rfl, fun h => ⟨h, fun _ => id⟩, StringPool.intern_keeps, id,
    fun _ => StringPool.intern_sound hm⟩

theorem grows_allocates {h : Heap Native} {c : Heap.Contents Native} (hh : m.heap.Allocates h r c) :
    Grows m { m with heap := h } := by
  refine ⟨⟨_, _, _, rfl⟩, fun hr => hh.keeps hr.2, fun {mt} hmt => ⟨?_, fun t ht => ?_⟩, id,
    hh.change.sound, id⟩
  · obtain ⟨slot, u, hu, hflag, hmeta⟩ := hmt
    refine ⟨slot, u, ?_, ?_, hmeta⟩
    · rw [Heap.userdata?, ← hh.userdata]
      exact hu
    · rw [Heap.isFinalized, ← hh.finalized]
      exact hflag
  · refine Heap.contents?_table.mp ((hh.keeps ?_).trans (Heap.contents?_table.mpr ht))
    rw [Heap.contents?_table.mpr ht]
    exact Option.some_ne_none _

/-! ## Cycles -/

/-- What a kept object holds is kept. -/
theorem Kept.step {v : Value} {r' : Ref} (hr : m.Kept r) (hv : m.heap.Holds r v)
    (hr' : v.ref? = some r') : m.Kept r' :=
  hr.imp (fun h => .step h hv hr') fun h => .step h hv hr'

theorem grows_cycle (hm : m.heap.Sound) : Grows m m.cycle.2.2 := by
  obtain ⟨heap, events, heq⟩ := m.cycle_eq
  refine ⟨⟨_, _, _, heq⟩, fun hr => contents?_cycle_of_kept hm (.inl hr.1), fun {mt} hmt => ?_, ?_,
    fun _ => cycle_sound hm, ?_⟩
  · obtain ⟨slot, u, hu, hflag, hmeta⟩ := hmt
    have hold := userdata?_cycle hu
    have hkept : m.Kept ⟨.userdata, slot⟩ := by
      by_contra hnot
      have hgone := contents?_cycle_of_not_kept hm hnot
      have hthere : m.cycle.2.2.heap.userdata.get? slot = some u := hu
      simp [Heap.contents?, hthere] at hgone
    refine ⟨⟨slot, u, hold, isFinalized_cycle ▸ hflag, hmeta⟩, fun t ht => ?_⟩
    have hkept' := contents?_cycle_of_kept hm (hkept.step (.userMeta hold hmeta) rfl)
    exact Heap.contents?_table.mp (hkept'.trans (Heap.contents?_table.mpr ht))
  · rw [heq]
    exact id
  · rw [heq]
    exact id

theorem cycle_queue_nil (hm : m.NoFinalizers) : m.cycle.1 = [] := by
  rw [List.eq_nil_iff_forall_not_mem]
  intro slot hslot
  obtain ⟨u, hu, -, hflag, hentry⟩ := mem_cycle_queue.mp hslot
  rw [Heap.hasMetaEntry] at hentry
  cases hmeta : u.metatable with
  | none => simp [hmeta] at hentry
  | some mt =>
      obtain ⟨t, ht, hnil⟩ := hm mt ⟨slot, u, hu, hflag, hmeta⟩
      simp [hmeta, ht, hnil] at hentry

end Machine

namespace Act

variable {ε : Type} {m : Machine}

/-- Without finalizers a collection that is due only makes room. -/
theorem collectIfDue_grows (host : Host) (hm : m.heap.Sound) (hquiet : m.NoFinalizers) :
    ∃ m', (collectIfDue : Act ε Unit) host m = .ok () m' ∧ m.Grows m' := by
  obtain ⟨m', hrun, rfl | ⟨freed, hcollect⟩⟩ := collectIfDue_cases (ε := ε) host m
  · exact ⟨_, hrun, .refl _⟩
  · cases hclosed : m.closed with
    | true =>
        rw [collect_closed hclosed] at hcollect
        cases hcollect
        exact ⟨m, hrun, .refl m⟩
    | false =>
        obtain ⟨m'', hqueue, hopen⟩ := collect_open (ε := ε) host hclosed
        rw [Machine.cycle_queue_nil hquiet] at hqueue
        obtain rfl : m.cycle.2.2 = m'' := by cases hqueue; rfl
        rw [hopen] at hcollect
        cases hcollect
        exact ⟨_, hrun, Machine.grows_cycle hm⟩

/-- After the collection a native function is pushed. -/
theorem pushNative_eq {host : Host} {m' : Machine} (code : NativeCode) (origin : Origin)
    (h : (collectIfDue : Act ε Unit) host m = .ok () m') : (pushNative code origin : Act ε Unit) host m =
      .ok () ({ m' with heap := (m'.heap.newFunction ⟨⟨.code code, origin⟩, #[]⟩).2 }.push
        (.function (m'.heap.newFunction ⟨⟨.code code, origin⟩, #[]⟩).1)) := by
  have hnone : m'.stack.extract m'.stack.size m'.stack.size = #[] := by simp
  have hall : m'.stack.shrink m'.stack.size = m'.stack := by
    rw [← Array.toList_inj, Array.toList_shrink, ← Array.length_toList, List.take_length]
  refine (bind_ok h).trans ?_
  simp only [run_modify, Nat.zero_min, Nat.sub_zero, hnone, Machine.truncate, hall]

theorem pushNative_ok {host : Host} {m' : Machine} (code : NativeCode)
    (h : (collectIfDue : Act ε Unit) host m = .ok () m') :
    ∃ f : Closure Native, f = { body := { behaviour := .code code, origin := .host }, upvalues := #[] } ∧
      (pushNative code : Act ε Unit) host m = .ok () ({ m' with heap := (m'.heap.newFunction f).2 }.push
        (.function (m'.heap.newFunction f).1)) :=
  ⟨_, rfl, pushNative_eq code .host h⟩

end Act

end ScriptHost
