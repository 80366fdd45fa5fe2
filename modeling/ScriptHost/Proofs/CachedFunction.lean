import ScriptHost.Proofs.Lawful.Index
import ScriptHost.Proofs.Persistence

/-! # Cached functions

What is cached for a native function is a function object that does what the native function does:
cached values are roots, so that no cycle frees it.
-/

namespace ScriptHost

namespace Machine

variable {m m' : Machine} {v : Value} {code : NativeCode}

/-- A function object of a native function. -/
def Implements (m : Machine) (v : Value) (code : NativeCode) : Prop :=
  ∃ slot body, v = .function slot ∧ m.heap.identity? ⟨.function, slot⟩ = some (.function body) ∧
    body.behaviour = .code code

/-- What is cached for native functions implements them. -/
def Faithful (m : Machine) : Prop :=
  ∀ code v, m.cache.get? (.native code) = some v → m.Implements v code

theorem Implements.extend (h : m.Implements v code) (hkeep : ∀ {slot body},
    m.heap.identity? ⟨.function, slot⟩ = some (.function body) →
      m'.heap.identity? ⟨.function, slot⟩ = some (.function body)) : m'.Implements v code := by
  obtain ⟨slot, body, hv, hid, hbody⟩ := h
  exact ⟨slot, body, hv, hkeep hid, hbody⟩

theorem Faithful.of_eq (h : m.Faithful) (hcache : m'.cache = m.cache)
    (hheap : ∀ r, m'.heap.identity? r = m.heap.identity? r) : m'.Faithful :=
  fun code v hv => (h code v (hcache ▸ hv)).extend fun hid => (hheap _).trans hid

theorem implements_newFunction {f : Closure Native} (hs : m.heap.Sound)
    (hf : f.body.behaviour = .code code) (hheap : m'.heap = (m.heap.newFunction f).2) :
    m'.Implements (.function (m.heap.newFunction f).1) code := by
  have hobject := (Heap.allocates_newFunction hs f).object
  refine ⟨_, f.body, rfl, ?_, hf⟩
  rw [Heap.identity?, hheap, hobject]
  rfl

theorem Change.faithful (h : Change m m') (hs : m.heap.Sound) (hm : m.Faithful) : m'.Faithful := by
  cases h with
  | stack | intern | host => exact hm
  | heap h hc => exact fun code v hv => (hm code v hv).extend fun hid => hc.identity hs hid
  | cache cache hkeep => exact fun code v hv => hm code v (hkeep code v hv)
  | constructed slot => exact hm.of_eq (by rw [note_eq]) fun _ => by rw [heap_note]
  | native code f hf =>
      intro code' v hv
      rw [IdentityCache.get?_insert] at hv
      split at hv
      · rename_i hsame
        obtain rfl : code' = code := by simpa using hsame
        obtain rfl : .function (m.heap.newFunction f).1 = v := by simpa [Value.isNil] using hv
        exact implements_newFunction hs hf rfl
      · exact (hm code' v hv).extend fun hid => (Heap.Change.newFunction f).identity hs hid

theorem Service.cache (h : Service m m') : m'.cache = m.cache := by
  obtain ⟨stack, guards, events, strings, rfl⟩ := h.eq
  rfl

theorem Move.faithful (h : Move m m') (hs : m.heap.Sound) (hm : m.Faithful) : m'.Faithful := by
  cases h with
  | change h => exact h.faithful hs hm
  | service h => exact hm.of_eq h.cache fun _ => by rw [h.heap]
  | enter | leave | protect | unprotect => exact hm
  | cycle =>
      intro code v hv
      obtain ⟨heap, events, heq⟩ := m.cycle_eq
      rw [heq] at hv
      obtain ⟨slot, body, rfl, hid, hbody⟩ := hm code v hv
      have hroot : m.Reached ⟨.function, slot⟩ := .start (.cached (IdentityCache.mem_entries hv)) rfl
      exact ⟨slot, body, rfl, (identity?_cycle hs hroot).trans hid, hbody⟩
  | shut =>
      refine hm.of_eq (by simp only [Machine.shut, enqueue_eq]; rfl) fun _ => ?_
      rw [shut_heap]
      exact Heap.identity?_congr rfl
  | turn slot =>
      obtain ⟨events, heq⟩ := turned_eq m slot
      refine hm.of_eq (by rw [heq]) fun _ => ?_
      rw [heq]
      exact Heap.identity?_congr rfl

theorem Reachable.faithful (hm : m.Reachable) : m.Faithful := by
  have hall : m.heap.Sound ∧ m.Faithful := by
    refine hm.induction (P := fun m => m.heap.Sound ∧ m.Faithful)
      (fun limits => ⟨(reachable_create limits).heap_sound, nofun⟩) fun h ⟨hs, hm⟩ => ?_
    exact ⟨h.heap_sound hs, h.faithful hs hm⟩
  exact hall.2

end Machine

namespace Act

open Machine

variable {ε : Type} {host : Host} {m m' : Machine} {code : NativeCode}

theorem cacheGet_eq (key : CacheKey NativeCode) : (cacheGet key : Act ε Bool) host m =
    match m.cache.get? key with
    | some v => .ok true (m.push v)
    | none => .ok false m := by
  rw [cacheGet, run_bind, run_get]
  dsimp only
  cases m.cache.get? key <;> rfl

/-- The function object of a native function is pushed, whether it was cached or is made. -/
theorem cachedNative_implements (hhost : host.Lawful) (hm : m.Reachable)
    (hrun : (cachedNative code : Act ε Unit) host m = .ok () m') :
    ∃ v, m'.Implements v code ∧ m'.stack.back? = some v := by
  rw [cachedNative, run_bind, cacheGet_eq] at hrun
  cases hget : m.cache.get? (.native code) with
  | some v =>
      rw [hget] at hrun
      cases hrun
      exact ⟨v, hm.faithful code v hget, Array.back?_push⟩
  | none =>
      rw [hget] at hrun
      have hmade : (do pushNative code; cacheSet (.native code) : Act ε Unit) host m = .ok () m' := hrun
      rw [pushNative, pushFunction, bind_assoc, run_bind] at hmade
      cases hcollect : (collectIfDue : Act ε Unit) host m with
      | error e m₁ => simp [hcollect] at hmade
      | ok u m₁ =>
          have hm₁ := hm.runs (collectIfDue_lawful.run_ok hhost hm.framed hcollect)
          simp only [hcollect] at hmade
          cases hmade
          exact ⟨_, implements_newFunction hm₁.heap_sound rfl rfl, Array.back?_push⟩

end Act

end ScriptHost
