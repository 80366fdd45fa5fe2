import ScriptHost.Proofs.NewInstance

/-! # The tables of the class library

What the host finds classes through: the registry with an entry for each class, the global table `class` with
the functions of the library, and the metatables of the classes with their markers. An equipped machine has all
of these in place. What leaves these tables and functions alone leaves a machine equipped, whatever else it does
to stack, strings and heap.
-/

namespace ScriptHost

open Machine

/-- The slots of the tables that classes are found through, and the classes by name. -/
structure Library where
  registry : Nat
  globals : Nat
  /-- The global table `class`. -/
  functions : Nat
  /-- The names of the classes, with the slots of their metatables. -/
  classes : List (String × Nat)
  distinct : (registry :: globals :: functions :: classes.map Prod.snd).Nodup
  names : (classes.map Prod.fst).Nodup

/-- The slots of all tables of a library. -/
def Library.tables (l : Library) : List Nat :=
  l.registry :: l.globals :: l.functions :: l.classes.map Prod.snd

namespace Machine

variable {m m' : Machine} {l : Library} {stock : List (String × NativeCode)}

/-- The tables of a library are in place, and nothing but its classes is registered under a name or has
    instances. All its functions are there, or those in stock while it is being set up. -/
structure Equipped (m : Machine) (l : Library) (stock : List (String × NativeCode) := Class.functions) : Prop where
  sound : m.heap.Sound
  strings : m.strings.Sound
  opened : m.closed = false
  registry : m.registry = l.registry
  globals : m.globals = l.globals
  present : ∀ t ∈ l.tables, m.heap.tables.get? t ≠ none
  shelf : m.Entry l.globals "class" (.table l.functions)
  stocked : ∀ f ∈ stock, ∃ v, m.Entry l.functions f.1 v ∧ m.Implements v f.2
  cached : ∀ code ∈ Class.codes, ∀ v, m.cache.get? (.token (Class.token code)) = some v → m.Implements v code
  marked : ∀ c ∈ l.classes, ∃ b, m.Entry c.2 Class.markerField (.bool b)
  plain : ∀ t ∈ l.functions :: l.classes.map Prod.snd, (m.heap.table t).metatable = none
  entered : ∀ c ∈ l.classes, m.Entry l.registry c.1 (.table c.2)
  registered : ∀ id : StringId, (m.heap.table l.registry).get (.string id) ≠ .nil → ∃ c ∈ l.classes,
    (m.heap.table l.registry).get (.string id) = .table c.2 ∧ m.strings.strings[id]? = some (Utf8.encode c.1)
  instances : ∀ {s u}, m.heap.userdata? s = some u → u.metatable = none ∨ ∃ c ∈ l.classes, u.metatable = some c.2

theorem mem_codes {code : NativeCode} (hcode : code ∈ Class.codes) : ∃ f ∈ Class.functions, f.2 = code ∧
    Path.segments (Class.path code) = ["class", f.1] := by
  simp only [Class.codes, Class.functions, List.map_cons, List.map_nil, List.mem_cons, List.not_mem_nil,
    or_false] at hcode
  rcases hcode with rfl | rfl | rfl
  · exact ⟨("New", .classNew), by decide, rfl, by decide +kernel⟩
  · exact ⟨("IsInstance", .classIsInstance), by decide, rfl, by decide +kernel⟩
  · exact ⟨("IsType", .classIsType), by decide, rfl, by decide +kernel⟩

theorem table_of_slot {t : Nat} {h h' : Heap Native} (ht : h'.tables.get? t = h.tables.get? t) :
    h'.table t = h.table t := by
  rw [Heap.table, ht, Heap.table]

namespace Equipped

/-- All functions of the library are found. -/
theorem ready (h : m.Equipped l) : m.Ready := by
  refine ⟨h.strings, fun code hcode => ?_⟩
  cases hget : m.cache.get? (.token (Class.token code)) with
  | some v => exact .inl ⟨v, hget, h.cached code hcode v hget⟩
  | none =>
      obtain ⟨f, hf, rfl, hpath⟩ := mem_codes hcode
      obtain ⟨v, hentry, himplements⟩ := h.stocked f hf
      exact .inr ⟨hget, l.functions, f.1, v, hpath, h.globals ▸ h.shelf, hentry, himplements⟩

theorem registry_mem (l : Library) : l.registry ∈ l.tables := List.mem_cons_self

theorem globals_mem (l : Library) : l.globals ∈ l.tables := List.mem_cons_of_mem _ List.mem_cons_self

theorem functions_mem (l : Library) : l.functions ∈ l.tables :=
  List.mem_cons_of_mem _ (List.mem_cons_of_mem _ List.mem_cons_self)

theorem class_mem {l : Library} {c : String × Nat} (hc : c ∈ l.classes) : c.2 ∈ l.tables :=
  List.mem_cons_of_mem _ (List.mem_cons_of_mem _ (List.mem_cons_of_mem _ (List.mem_map_of_mem hc)))

/-- A machine where the tables of the library are as they were, and its functions are what they were. -/
theorem of_kept (h : m.Equipped l stock) (sound : m'.heap.Sound) (pool : m'.strings.Sound)
    (strings : m.strings.Extends m'.strings) (registry : m'.registry = m.registry)
    (globals : m'.globals = m.globals) (closed : m'.closed = m.closed)
    (cached : ∀ code ∈ Class.codes, ∀ v, m'.cache.get? (.token (Class.token code)) = some v → m'.Implements v code)
    (tables : ∀ t ∈ l.tables, m'.heap.tables.get? t = m.heap.tables.get? t)
    (functions : ∀ {name v code}, m.Entry l.functions name v → m.Implements v code → m'.Implements v code)
    (instances : ∀ {s u'}, m'.heap.userdata? s = some u' → u'.metatable = none ∨
      ∃ u, m.heap.userdata? s = some u ∧ u'.metatable = u.metatable) : m'.Equipped l stock := by
  have hentry : ∀ {t : Nat} {name : String} {v : Value}, t ∈ l.tables → m.Entry t name v → m'.Entry t name v := by
    rintro t name v ht ⟨id, hid, hget⟩
    exact ⟨id, strings id _ hid, by rw [table_of_slot (tables t ht), hget]⟩
  have htable := table_of_slot (tables _ (registry_mem l))
  refine ⟨sound, pool, closed.trans h.opened, registry.trans h.registry, globals.trans h.globals, fun t ht => ?_,
    hentry (globals_mem l) h.shelf, fun f hf => ?_, cached, fun c hc => ?_, fun t ht => ?_,
    fun c hc => hentry (registry_mem l) (h.entered c hc), fun id hid => ?_, fun {s u'} hu => ?_⟩
  · rw [tables t ht]
    exact h.present t ht
  · obtain ⟨v, hv, himplements⟩ := h.stocked f hf
    exact ⟨v, hentry (functions_mem l) hv, functions hv himplements⟩
  · obtain ⟨b, hb⟩ := h.marked c hc
    exact ⟨b, hentry (class_mem hc) hb⟩
  · rw [table_of_slot (tables t (List.mem_cons_of_mem _ (List.mem_cons_of_mem _ ht)))]
    exact h.plain t ht
  · rw [htable] at hid ⊢
    obtain ⟨c, hc, hget, hname⟩ := h.registered id hid
    exact ⟨c, hc, hget, strings id _ hname⟩
  · rcases instances hu with hnone | ⟨u, hold, heq⟩
    · exact .inl hnone
    · rw [heq]
      exact h.instances hold

/-- The same where no function object is another one and the cache stays. -/
theorem of_functions (h : m.Equipped l stock) (sound : m'.heap.Sound) (pool : m'.strings.Sound)
    (strings : m.strings.Extends m'.strings) (registry : m'.registry = m.registry)
    (globals : m'.globals = m.globals) (closed : m'.closed = m.closed) (cache : m'.cache = m.cache)
    (tables : ∀ t ∈ l.tables, m'.heap.tables.get? t = m.heap.tables.get? t)
    (functions : ∀ {g body}, m.heap.identity? ⟨.function, g⟩ = some (.function body) →
      m'.heap.identity? ⟨.function, g⟩ = some (.function body))
    (instances : ∀ {s u'}, m'.heap.userdata? s = some u' → u'.metatable = none ∨
      ∃ u, m.heap.userdata? s = some u ∧ u'.metatable = u.metatable) : m'.Equipped l stock :=
  h.of_kept sound pool strings registry globals closed
    (fun code hcode v hv => (h.cached code hcode v (cache ▸ hv)).extend functions) tables
    (fun _ himplements => himplements.extend functions) instances

/-- What changes neither tables, functions nor userdata. -/
theorem of_eq (h : m.Equipped l stock) (sound : m'.heap.Sound) (strings : m'.strings = m.strings)
    (registry : m'.registry = m.registry) (globals : m'.globals = m.globals) (closed : m'.closed = m.closed)
    (cache : m'.cache = m.cache) (tables : m'.heap.tables = m.heap.tables)
    (functions : m'.heap.functions = m.heap.functions) (userdata : m'.heap.userdata = m.heap.userdata) :
    m'.Equipped l stock := by
  refine h.of_functions sound (strings ▸ h.strings) (by rw [strings]; exact .refl _) registry globals closed cache
    (fun t _ => by rw [tables]) (fun {g body} hg => ?_) fun {s u'} hu => .inr ⟨u', ?_, rfl⟩
  · rw [Heap.identity?, Heap.contents?] at hg ⊢
    rwa [functions]
  · rwa [Heap.userdata?, userdata] at hu

theorem of_heap (h : m.Equipped l stock) (heap : m'.heap = m.heap) (strings : m'.strings = m.strings)
    (registry : m'.registry = m.registry) (globals : m'.globals = m.globals) (closed : m'.closed = m.closed)
    (cache : m'.cache = m.cache) : m'.Equipped l stock :=
  h.of_eq (heap ▸ h.sound) strings registry globals closed cache (by rw [heap]) (by rw [heap]) (by rw [heap])

theorem intern (h : m.Equipped l stock) (bytes : Bytes) : (m.intern bytes).2.Equipped l stock :=
  h.of_functions h.sound (StringPool.intern_sound h.strings) (m.strings.extends_intern bytes) rfl rfl rfl rfl
    (fun _ _ => rfl) (fun hid => hid) fun {_ u'} hu => .inr ⟨u', hu, rfl⟩

theorem push {v : Value} (h : m.Equipped l stock) : (m.push v).Equipped l stock := h.of_heap rfl rfl rfl rfl rfl rfl

/-- More strings, and more functions that are cached. -/
theorem passes (h : m.Equipped l) (hpasses : m.Passes m') : m'.Equipped l := by
  have hready := hpasses.ready h.ready
  have hfunctions : ∀ {v code}, m.Implements v code → m'.Implements v code := fun himplements =>
    himplements.extend fun hid => by rw [hpasses.heap]; exact hid
  refine h.of_kept (hpasses.heap ▸ h.sound) hready.strings hpasses.strings hpasses.registry hpasses.globals
    hpasses.closed (fun code hcode v hv => ?_) (fun t _ => by rw [hpasses.heap]) (fun _ => hfunctions)
    fun {s u'} hu => .inr ⟨u', hpasses.heap ▸ hu, rfl⟩
  rcases hready.found code hcode with ⟨w, hw, himplements⟩ | ⟨hnone, -⟩
  · rw [hv] at hw
    exact Option.some.inj hw ▸ himplements
  · rw [hnone] at hv
    cases hv

end Equipped

/-! ## New objects -/

/-- An object is made beside those that are there. -/
theorem Equipped.allocates {heap : Heap Native} {r : Ref} {c : Heap.Contents Native} (h : m.Equipped l stock)
    (ha : m.heap.Allocates heap r c) : { m with heap }.Equipped l stock := by
  refine h.of_functions (ha.change.sound h.sound) h.strings (.refl _) rfl rfl rfl rfl (fun t ht => ?_)
    (fun hid => ha.change.identity h.sound hid) fun {s u'} hu => .inr ⟨u', ?_, rfl⟩
  · have hthere : m.heap.contents? ⟨.table, t⟩ ≠ none := fun hnone =>
      h.present t ht (Option.map_eq_none_iff.mp hnone)
    exact Option.map_injective (fun _ _ heq => Heap.Contents.table.inj heq) (ha.keeps hthere)
  · have hsame : heap.userdata? s = m.heap.userdata? s := by rw [Heap.userdata?, ha.userdata, Heap.userdata?]
    exact hsame ▸ hu

/-- A new userdata has no metatable. -/
theorem Equipped.newUserdata (h : m.Equipped l) (size : Nat) :
    { m with heap := (m.heap.newUserdata size).2 }.Equipped l := by
  refine h.of_functions (Heap.newUserdata_sound h.sound) h.strings (.refl _) rfl rfl rfl rfl (fun _ _ => rfl)
    (fun hid => (Heap.Change.newUserdata size).identity h.sound hid) fun {s u'} hu => ?_
  have hmade : (m.heap.newUserdata size).2.userdata? s = some u' := hu
  rw [Heap.newUserdata_userdata? size s h.sound] at hmade
  split at hmade
  · cases hmade
    exact .inl rfl
  · exact .inr ⟨u', hmade, rfl⟩

/-! ## Cycles -/

/-- The tables of a library are reached from the roots. -/
theorem Equipped.reached (h : m.Equipped l stock) {t : Nat} (ht : t ∈ l.tables) : m.Reached ⟨.table, t⟩ := by
  have hregistry : m.Reached ⟨.table, l.registry⟩ := h.registry ▸ .start .registry rfl
  have hglobals : m.Reached ⟨.table, l.globals⟩ := h.globals ▸ .start .globals rfl
  have hentry : ∀ {t : Nat} {name : String} {t' : Nat}, m.Reached ⟨.table, t⟩ → m.Entry t name (.table t') →
      m.Reached ⟨.table, t'⟩ := by
    rintro t name t' hr ⟨id, -, hget⟩
    have hheld : m.heap.Holds ⟨.table, t⟩ ((m.heap.table t).get (.string id)) :=
      Heap.holds_get (by rw [hget]; rfl)
    rw [hget] at hheld
    exact .step hr hheld rfl
  simp only [Library.tables, List.mem_cons, List.mem_map] at ht
  rcases ht with rfl | rfl | rfl | ⟨c, hc, rfl⟩
  · exact hregistry
  · exact hglobals
  · exact hentry hglobals h.shelf
  · exact hentry hregistry (h.entered c hc)

theorem Equipped.cycle (h : m.Equipped l stock) : m.cycle.2.2.Equipped l stock := by
  obtain ⟨heap, events, heq⟩ := m.cycle_eq
  have himplements : ∀ {v code}, (∀ g, v = .function g → m.Reached ⟨.function, g⟩) → m.Implements v code →
      m.cycle.2.2.Implements v code := by
    rintro v code hr ⟨g, body, rfl, hid, hbody⟩
    exact ⟨g, body, rfl, (identity?_cycle h.sound (hr g rfl)).trans hid, hbody⟩
  have hstrings : m.cycle.2.2.strings = m.strings := by rw [heq]
  refine h.of_kept (cycle_sound h.sound) (hstrings ▸ h.strings) (by rw [hstrings]; exact .refl _) (by rw [heq])
    (by rw [heq]) (by rw [heq]) (fun code hcode v hv => ?_) (fun t ht => tables_cycle h.sound (.inl (h.reached ht)))
    (fun {name v code} hentry hcode => ?_) fun {s u'} hu => .inr ⟨u', userdata?_cycle hu, rfl⟩
  · have hold : m.cache.get? (.token (Class.token code)) = some v := by
      rw [heq] at hv
      exact hv
    refine himplements (fun g hg => ?_) (h.cached code hcode v hold)
    subst hg
    exact .start (.cached (IdentityCache.mem_entries hold)) rfl
  · refine himplements (fun g hg => ?_) hcode
    subst hg
    obtain ⟨id, -, hget⟩ := hentry
    have hheld : m.heap.Holds ⟨.table, l.functions⟩ ((m.heap.table l.functions).get (.string id)) :=
      Heap.holds_get (by rw [hget]; rfl)
    rw [hget] at hheld
    exact .step (h.reached (Equipped.functions_mem l)) hheld rfl

end Machine

end ScriptHost
