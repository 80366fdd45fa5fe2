import ScriptHost.Proofs.Growth
import ScriptHost.Proofs.Handling

/-! # The same object

What never changes about an object as long as it lives tells it from others that come to its slot
later. It stays the same while every cycle reaches it, whatever else happens.
-/

namespace ScriptHost

namespace Heap

variable {β : Type} {h h' : Heap β} {r : Ref} {slot : Nat}

/-- What never changes about an object. -/
inductive Identity (β : Type) where
  | table
  | function (body : β)
  | userdata (serial : Nat)
  | boxed (i : Int)

def Contents.identity : Contents β → Identity β
  | .table _ => .table
  | .function f => .function f.body
  | .userdata u _ => .userdata u.serial
  | .boxed i => .boxed i

/-- What tells the object behind a reference, if there is one. -/
def identity? (h : Heap β) (r : Ref) : Option (Identity β) := (h.contents? r).map (·.identity)

theorem identity?_congr (hr : h'.contents? r = h.contents? r) : h'.identity? r = h.identity? r := by
  rw [identity?, hr, identity?]

theorem identity?_function {body : β} : h.identity? ⟨.function, slot⟩ = some (.function body) ↔
    ∃ f, h.function? slot = some f ∧ f.body = body := by
  simp [identity?, contents?, function?, Contents.identity]

theorem identity?_eq (h : Heap β) (r : Ref) : h.identity? r =
    match r.kind with
    | .table => (h.tables.get? r.slot).map fun _ => .table
    | .function => (h.functions.get? r.slot).map fun f => .function f.body
    | .userdata => (h.userdata.get? r.slot).map fun u => .userdata u.serial
    | .boxed => (h.boxed.get? r.slot).map .boxed := by
  obtain ⟨kind, slot⟩ := r
  cases kind <;> simp only [identity?, contents?, Option.map_map] <;> rfl

/-- Outside the collector objects stay what they are. -/
theorem Change.identity (hc : Change h h') (hs : h.Sound) {n : Identity β}
    (hr : h.identity? r = some n) : h'.identity? r = some n := by
  have hinsert : ∀ {α : Type} {a : Arena α} (x : α) {f : α → Identity β} {s : Nat}, a.Sound →
      (a.get? s).map f = some n → ((a.insert x).2.get? s).map f = some n := by
    intro α a x f s ha hold
    rw [Arena.get?_insert ha, if_neg]
    · exact hold
    · rintro rfl
      rw [Arena.get?_insert_slot ha] at hold
      cases hold
  have hmodify : ∀ {α : Type} {a : Arena α} {change : α → α} {f : α → Identity β} {s t : Nat},
      (∀ x, f (change x) = f x) → (a.get? s).map f = some n →
      ((a.modify t change).get? s).map f = some n := by
    intro α a change f s t hsame hold
    rw [Arena.get?_modify]
    split
    · rw [Option.map_map, show f ∘ change = f from funext hsame]
      exact hold
    · exact hold
  rw [identity?_eq] at hr ⊢
  obtain ⟨kind, slot⟩ := r
  cases hc with
  | newTable =>
      cases kind with
      | table => exact hinsert _ hs.tables hr
      | function | userdata | boxed => exact hr
  | newFunction f =>
      cases kind with
      | function => exact hinsert _ hs.functions hr
      | table | userdata | boxed => exact hr
  | newUserdata size =>
      cases kind with
      | userdata => exact hinsert _ hs.userdata hr
      | table | function | boxed => exact hr
  | newBoxed i =>
      cases kind with
      | boxed => exact hinsert _ hs.boxed hr
      | table | function | userdata => exact hr
  | entry | tableMeta =>
      cases kind with
      | table => exact hmodify (fun _ => rfl) hr
      | function | userdata | boxed => exact hr
  | userMeta | userValue =>
      cases kind with
      | userdata => exact hmodify (fun _ => rfl) hr
      | table | function | boxed => exact hr
  | upvalue =>
      cases kind with
      | function => exact hmodify (fun _ => rfl) hr
      | table | userdata | boxed => exact hr
  | allocate | write => exact hr

end Heap

namespace Machine

variable {m m' : Machine} {v : Value} {r : Ref} {n : Heap.Identity Native}

theorem Change.identity (h : Change m m') (hs : m.heap.Sound) (hr : m.heap.identity? r = some n) :
    m'.heap.identity? r = some n := by
  cases h with
  | heap h hc => exact hc.identity hs hr
  | native code f => exact (Heap.Change.newFunction f).identity hs hr
  | constructed => rwa [heap_note]
  | stack | intern | host | cache => exact hr

theorem identity?_cycle (hs : m.heap.Sound) (hreached : m.Reached r) :
    m.cycle.2.2.heap.identity? r = m.heap.identity? r :=
  Heap.identity?_congr (contents?_cycle_of_kept hs (.inl hreached))

theorem Move.identity (h : Move m m') (hs : m.heap.Sound) (hretains : Retains v m m')
    (hv : v.ref? = some r) (hr : m.heap.identity? r = some n) : m'.heap.identity? r = some n := by
  cases h with
  | change h => exact h.identity hs hr
  | service h => rwa [h.heap]
  | enter | leave | protect | unprotect => exact hr
  | cycle => rwa [identity?_cycle hs (Retains.cycle_iff.mp hretains r hv)]
  | shut =>
      rw [shut_heap]
      exact (Heap.identity?_congr rfl).trans hr
  | turn slot =>
      obtain ⟨events, heq⟩ := turned_eq m slot
      rw [heq]
      exact (Heap.identity?_congr rfl).trans hr

/-- An object that every cycle reaches stays the same. -/
theorem Moves.identity (h : Moves m m') (hm : m.Reachable) (hretains : Retains v m m')
    (hv : v.ref? = some r) (hr : m.heap.identity? r = some n) : m'.heap.identity? r = some n := by
  induction h with
  | refl => exact hr
  | tail hmoves hmove ih =>
      obtain ⟨hfirst, hlast⟩ := hretains.split (Moves.log hmoves) hmove.log
      exact hmove.identity (hm.moves hmoves).heap_sound hlast hv (ih hfirst)

end Machine

end ScriptHost
