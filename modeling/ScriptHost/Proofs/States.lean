import ScriptHost.Proofs.Run
import ScriptHost.Proofs.StringPool

/-! # Invariants of all states

In every state the heap keeps its invariant, and so does the string pool, whose first strings are the
names of the metafields.
-/

namespace ScriptHost.Machine

variable {m m' : Machine}

/-! ## The heap -/

theorem Service.heap (h : Service m m') : m'.heap = m.heap := by
  obtain ⟨stack, guards, events, strings, rfl⟩ := h.eq
  rfl

theorem Change.heap_sound (h : Change m m') (hm : m.heap.Sound) : m'.heap.Sound := by
  cases h with
  | heap h hc => exact hc.sound hm
  | native code f => exact (Heap.Change.newFunction f).sound hm
  | constructed => rw [heap_note]; exact hm
  | stack | intern | host | cache => exact hm

theorem turned_sound (slot : Nat) (hm : m.heap.Sound) : (m.turned slot).heap.Sound := by
  obtain ⟨events, h⟩ := turned_eq m slot
  rw [h]
  exact Heap.sound_setFinalized hm

theorem Move.heap_sound (h : Move m m') (hm : m.heap.Sound) : m'.heap.Sound := by
  cases h with
  | change h => exact h.heap_sound hm
  | service h => rw [h.heap]; exact hm
  | cycle => exact cycle_sound hm
  | shut =>
      rw [shut_heap]
      exact hm.of_eq hm.tables hm.functions hm.boxed rfl rfl rfl rfl
  | turn slot => exact turned_sound slot hm
  | enter | leave | protect | unprotect => exact hm

theorem Runs.heap_sound {q : List Nat} (h : Runs q m m') (hm : m.heap.Sound) : m'.heap.Sound := by
  induction h with
  | refl => exact hm
  | trans _ _ ih ih' => exact ih' (ih hm)
  | change h => exact h.heap_sound hm
  | forget => exact (Move.service .forgotten).heap_sound hm
  | call f _ _ _ ih => exact ih hm
  | protect handler _ ih => exact ih hm
  | @handle _ _ handler raised answer hheeds _ hbase ih =>
      have hbegun := (Move.service (.begun handler raised hheeds)).heap_sound hm
      exact (Move.service (.ended _ raised answer hbase)).heap_sound (ih hbegun)
  | collect hopen _ ih => exact ih ((Move.cycle hopen).heap_sound hm)
  | close hopen _ ih => exact ih ((Move.shut hopen).heap_sound hm)
  | @turn _ _ slot _ ih => exact ih (turned_sound slot hm)

theorem Reachable.heap_sound (hm : m.Reachable) : m.heap.Sound := by
  refine hm.induction (P := fun m => m.heap.Sound) (fun limits => ?_) Move.heap_sound
  have hempty : ({ interval := limits.collectInterval } : Heap Native).Sound :=
    Heap.sound_empty.of_eq Arena.sound_empty Arena.sound_empty Arena.sound_empty rfl rfl rfl rfl
  exact (Heap.Change.newTable).sound ((Heap.Change.newTable).sound hempty)

/-! ## The strings -/

/-- The pool is sound and the metafields have their numbers in it. -/
structure Named (m : Machine) : Prop where
  sound : m.strings.Sound
  names : ∀ f : Metafield, m.strings.strings[f.id]? = some (Utf8.encode f.text)

theorem Named.of_strings (hm : m.Named) (h : m'.strings = m.strings) : m'.Named :=
  ⟨h ▸ hm.sound, fun f => h ▸ hm.names f⟩

theorem named_create (limits : Limits) : (create limits).Named := by
  refine ⟨?_, fun f => ?_⟩
  · exact StringPool.intern_sound (StringPool.intern_sound (StringPool.intern_sound
      (StringPool.intern_sound (StringPool.intern_sound StringPool.sound_empty))))
  · have hnames : (create limits).strings.strings =
        #[] ++ (Metafield.all.map fun f => Utf8.encode f.text).toArray :=
      StringPool.strings_internAll StringPool.sound_empty (by decide +kernel) (by simp)
    rw [hnames]
    cases f <;> rfl

theorem Named.intern (hm : m.Named) {bytes : Bytes} : (m.intern bytes).2.Named :=
  ⟨StringPool.intern_sound hm.sound, fun f => StringPool.intern_keeps (hm.names f)⟩

theorem Change.named (h : Change m m') (hm : m.Named) : m'.Named := by
  cases h with
  | intern bytes => exact hm.intern
  | constructed => exact hm.of_strings (by rw [note_eq])
  | stack | heap | host | cache | native => exact hm.of_strings rfl

theorem Service.named (h : Service m m') (hm : m.Named) : m'.Named := by
  cases h with
  | forgotten => exact hm.of_strings (by rw [forgetDecoration_eq])
  | begun => exact hm.of_strings (by rw [beginHandling_eq])
  | ended _ _ answer =>
      cases answer with
      | some v => exact hm.of_strings (by rw [endHandling_eq]; rfl)
      | none => exact hm.intern.of_strings (by rw [endHandling_eq]; rfl)

theorem cycle_strings : m.cycle.2.2.strings = m.strings := by
  obtain ⟨heap, events, h⟩ := m.cycle_eq
  rw [h]

theorem shut_strings : m.shut.2.strings = m.strings := by
  simp only [Machine.shut, enqueue_eq]
  rfl

theorem turned_strings (m : Machine) (slot : Nat) : (m.turned slot).strings = m.strings := by
  obtain ⟨events, h⟩ := turned_eq m slot
  rw [h]

theorem Move.named (h : Move m m') (hm : m.Named) : m'.Named := by
  cases h with
  | change h => exact h.named hm
  | service h => exact h.named hm
  | cycle => exact hm.of_strings cycle_strings
  | shut => exact hm.of_strings shut_strings
  | turn slot => exact hm.of_strings (turned_strings m slot)
  | enter | leave | protect | unprotect => exact hm.of_strings rfl

theorem Change.strings (h : Change m m') : m.strings.Extends m'.strings := by
  cases h with
  | intern bytes => exact StringPool.extends_intern _ _
  | constructed =>
      rw [note_eq]
      exact .refl _
  | stack | heap | host | cache | native => exact .refl _

theorem strings_endHandling {position : Nat} {raised : Value} {answer : Option Value} :
    m.strings.Extends (m.endHandling position raised answer).strings := by
  rw [endHandling_eq]
  cases answer with
  | some v => exact .refl _
  | none => exact StringPool.extends_intern _ _

theorem Service.strings (h : Service m m') : m.strings.Extends m'.strings := by
  cases h with
  | forgotten =>
      rw [forgetDecoration_eq]
      exact .refl _
  | begun =>
      rw [beginHandling_eq]
      exact .refl _
  | ended => exact strings_endHandling

theorem Move.strings (h : Move m m') : m.strings.Extends m'.strings := by
  cases h with
  | change h => exact h.strings
  | service h => exact h.strings
  | enter | leave | protect | unprotect => exact .refl _
  | cycle => exact cycle_strings ▸ .refl _
  | shut => exact shut_strings ▸ .refl _
  | turn slot => exact turned_strings m slot ▸ .refl _

/-- Strings are never given up. -/
theorem Moves.strings (h : Moves m m') : m.strings.Extends m'.strings := by
  induction h with
  | refl => exact .refl _
  | tail _ hmove ih => exact ih.trans hmove.strings

theorem Runs.strings {q : List Nat} (h : Runs q m m') : m.strings.Extends m'.strings := by
  induction h with
  | refl => exact .refl _
  | trans _ _ ih ih' => exact ih.trans ih'
  | change h => exact h.strings
  | forget => exact Service.forgotten.strings
  | call _ _ _ _ ih | protect _ _ ih => exact ih
  | @handle _ _ handler raised answer hheeds _ hbase ih =>
      exact ((Service.begun handler raised hheeds).strings.trans ih).trans
        (Service.ended _ raised answer hbase).strings
  | collect _ _ ih => rwa [cycle_strings] at ih
  | close _ _ ih => rwa [shut_strings] at ih
  | @turn m _ slot _ ih => exact turned_strings m slot ▸ ih

/-- In every state strings have one number each, and the metafields have theirs. -/
theorem Reachable.named (hm : m.Reachable) : m.Named := hm.induction named_create Move.named

end ScriptHost.Machine
