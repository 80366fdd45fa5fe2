import ScriptHost.Proofs.GlobalTables
import ScriptHost.Proofs.Installation
import ScriptHost.Proofs.Keeping.Marshal

/-! # Setting up the class library

Where the global table `class` is missing it is made, and the functions of the library are set in it each time a
class is defined. No table that this concerns has a metatable, so every assignment is a store. Nothing has a class
when the table is made; so no finalizer is called on the way, and from then on the host keeps the library.
-/

namespace ScriptHost

open Machine

namespace Machine

variable {m m' : Machine} {l : Library} {stock stock' : List (String × NativeCode)} {t slot : Nat} {id : StringId}
  {name : String} {v w : Value} {c : String × Nat}

/-! ## Stores under names -/

/-- A store under a name concerns the entry of this name in one table. -/
theorem get_setEntry_other {other : StringId} (hother : t = slot → other ≠ id) :
    ((m.setEntry slot (.string id) v).heap.table t).get (.string other) =
      (m.heap.table t).get (.string other) := by
  by_cases hslot : t = slot
  · subst hslot
    cases ht : m.heap.tables.get? t with
    | none => rw [table_of_slot (show (m.setEntry t (.string id) v).heap.tables.get? t = m.heap.tables.get? t by
        rw [tables_setEntry, if_pos rfl, ht, Option.map_none])]
    | some table => rw [table_setEntry_get ht, table_of_get ht, Table.get_set_string, if_neg (hother rfl)]
  · rw [table_setEntry_other hslot]

theorem Entry.setEntry (h : m.Entry t name w)
    (hother : t = slot → m.strings.strings[id]? ≠ some (Utf8.encode name)) :
    (m.setEntry slot (.string id) v).Entry t name w := by
  obtain ⟨other, hid, hget⟩ := h
  refine ⟨other, hid, (get_setEntry_other fun hslot => ?_).trans hget⟩
  rintro rfl
  exact hother hslot hid

theorem entry_setEntry (hthere : m.heap.tables.get? slot ≠ none)
    (hid : m.strings.strings[id]? = some (Utf8.encode name)) : (m.setEntry slot (.string id) v).Entry slot name v := by
  obtain ⟨table, htable⟩ := Option.ne_none_iff_exists'.mp hthere
  refine ⟨id, hid, ?_⟩
  rw [table_setEntry_get htable, Table.get_set_string, if_pos rfl]

theorem tables_setEntry_ne_none {key : Key} (h : m.heap.tables.get? t ≠ none) :
    (m.setEntry slot key v).heap.tables.get? t ≠ none := by
  rw [tables_setEntry]
  split
  · exact fun hnone => h (Option.map_eq_none_iff.mp hnone)
  · exact h

theorem metatable_setEntry {key : Key} :
    ((m.setEntry slot key v).heap.table t).metatable = (m.heap.table t).metatable :=
  metatable?_setEntry key v (.table t)

/-- The value on top was pushed. -/
theorem Laid.eq_push {b : Nat} {s : List Value} (hl : Laid b (s ++ [v]) m) :
    ∃ m₀ : Machine, m = m₀.push v ∧ Laid b s m₀ := by
  refine ⟨{ m with stack := s.toArray }, ?_, hl.base, rfl⟩
  have hstack : m.stack = s.toArray.push v := by
    rw [← Array.toList_inj, hl.stack, Array.toList_push]
  rw [Machine.push, ← hstack]

end Machine

/-! ## Stores in the tables of a library -/

namespace Library

theorem functions_ne (l : Library) : l.functions ≠ l.registry ∧ l.functions ≠ l.globals := by
  have hdistinct := l.distinct
  simp only [List.nodup_cons, List.mem_cons, not_or] at hdistinct
  exact ⟨Ne.symm hdistinct.1.2.1, Ne.symm hdistinct.2.1.1⟩

theorem class_ne {l : Library} {c : String × Nat} (hc : c ∈ l.classes) :
    c.2 ≠ l.registry ∧ c.2 ≠ l.globals ∧ c.2 ≠ l.functions := by
  have hdistinct := l.distinct
  have hmem : c.2 ∈ l.classes.map Prod.snd := List.mem_map_of_mem hc
  simp only [List.nodup_cons, List.mem_cons, not_or] at hdistinct
  refine ⟨?_, ?_, ?_⟩ <;> intro heq <;> rw [heq] at hmem
  · exact hdistinct.1.2.2 hmem
  · exact hdistinct.2.1.2 hmem
  · exact hdistinct.2.2.1 hmem

end Library

namespace Machine.Equipped

variable {m : Machine} {l : Library} {stock stock' : List (String × NativeCode)} {slot : Nat} {id : StringId}
  {name : String} {v : Value} {c : String × Nat} {f : String × NativeCode}

theorem mono (h : m.Equipped l stock) (hsub : stock' ⊆ stock) : m.Equipped l stock' :=
  { h with stocked := fun f hf => h.stocked f (hsub hf) }

theorem setEntry_string (h : m.Equipped l stock) (hregistry : slot ≠ l.registry) (hglobals : slot ≠ l.globals)
    (hstocked : ∀ f ∈ stock', ∃ w, (m.setEntry slot (.string id) v).Entry l.functions f.1 w ∧ m.Implements w f.2)
    (hmarked : ∀ c ∈ l.classes, c.2 = slot → m.strings.strings[id]? ≠ some (Utf8.encode Class.markerField)) :
    (m.setEntry slot (.string id) v).Equipped l stock' := by
  have hchange : m.heap.Change (m.setEntry slot (.string id) v).heap := .entry slot (.string id) v
  have himplements : ∀ {w code}, m.Implements w code → (m.setEntry slot (.string id) v).Implements w code :=
    fun hw => hw.extend fun hid => hchange.identity h.sound hid
  have hregistered : ∀ other : StringId, ((m.setEntry slot (.string id) v).heap.table l.registry).get (.string other) =
      (m.heap.table l.registry).get (.string other) :=
    fun other => get_setEntry_other fun heq => absurd heq.symm hregistry
  refine ⟨hchange.sound h.sound, h.strings, h.opened, h.registry, h.globals,
    fun t ht => tables_setEntry_ne_none (h.present t ht), h.shelf.setEntry fun heq => absurd heq.symm hglobals,
    fun f hf => ?_, fun code hcode w hw => himplements (h.cached code hcode w hw), fun c hc => ?_,
    fun t ht => metatable_setEntry.trans (h.plain t ht),
    fun c hc => (h.entered c hc).setEntry fun heq => absurd heq.symm hregistry, fun other hother => ?_, h.instances⟩
  · obtain ⟨w, hw, hcode⟩ := hstocked f hf
    exact ⟨w, hw, himplements hcode⟩
  · obtain ⟨b, hb⟩ := h.marked c hc
    exact ⟨b, hb.setEntry (hmarked c hc)⟩
  · rw [hregistered] at hother ⊢
    exact h.registered other hother

/-- The metatable of a class gets an entry other than the marker. -/
theorem setEntry_class (h : m.Equipped l stock) (hc : c ∈ l.classes)
    (hid : m.strings.strings[id]? ≠ some (Utf8.encode Class.markerField)) :
    (m.setEntry c.2 (.string id) v).Equipped l stock := by
  obtain ⟨hregistry, hglobals, hfunctions⟩ := Library.class_ne hc
  refine h.setEntry_string hregistry hglobals (fun f hf => ?_) fun _ _ _ => hid
  obtain ⟨w, hw, hcode⟩ := h.stocked f hf
  exact ⟨w, hw.setEntry fun heq => absurd heq.symm hfunctions, hcode⟩

/-- A function is put in stock, in place of one that does the same if there is one. -/
theorem setEntry_function (h : m.Equipped l stock) (hf : f ∈ Class.functions) (hstock : stock ⊆ Class.functions)
    (hid : m.strings.strings[id]? = some (Utf8.encode f.1)) (hv : m.Implements v f.2) :
    (m.setEntry l.functions (.string id) v).Equipped l (f :: stock) := by
  have hnames : ∀ f ∈ Class.functions, ∀ g ∈ Class.functions, g.1 = f.1 → g = f := by decide
  have hself : (m.setEntry l.functions (.string id) v).Entry l.functions f.1 v :=
    entry_setEntry (h.present _ (functions_mem l)) hid
  refine h.setEntry_string l.functions_ne.1 l.functions_ne.2 (fun g hg => ?_)
    fun c hc heq => absurd heq (Library.class_ne hc).2.2
  by_cases hname : g.1 = f.1
  · obtain rfl : g = f := hnames f hf g ((List.mem_cons.mp hg).elim (fun heq => heq ▸ hf) fun hin => hstock hin) hname
    exact ⟨v, hself, hv⟩
  · have hin : g ∈ stock := (List.mem_cons.mp hg).resolve_left fun heq => hname (heq ▸ rfl)
    obtain ⟨w, hw, hcode⟩ := h.stocked g hin
    refine ⟨w, hw.setEntry fun _ hsame => hname ?_, hcode⟩
    exact Utf8.encode_injective (Option.some.inj (hsame.symm.trans hid))

end Machine.Equipped

/-! ## Assignments -/

namespace Act

variable {host : Host} {m : Machine} {b n t : Nat} {below above : List Value} {v : Value} {i : StackIndex}
  {name : String}

/-- Assigning to a table without a metatable is a store. -/
theorem setField_plain (host : Host) (name : String) (hl : Laid b (below ++ .table t :: above ++ [v]) m)
    (hb : b ≤ below.length) (hi : m.absolute i = .fromBottom n) (hn : b + n = below.length + 1)
    (hplain : (m.heap.table t).metatable = none) : setField i name host m =
      .ok () (((m.intern (Utf8.encode name)).2.setEntry t (.string (m.intern (Utf8.encode name)).1) v).pop 1) := by
  obtain ⟨m₀, rfl, hl₀⟩ := hl.eq_push
  have hframed : m₀.Framed := by
    unfold Framed
    rw [hl₀.base, hl₀.size, List.length_append]
    omega
  have hnewindex : (m₀.metafield (.table t) .newindex).isNil = true := by
    have hnone : m₀.metatable? (.table t) = none := hplain
    rw [metafield, metaEntry, hnone]
    rfl
  have hat : ∀ x, (((m₀.intern (Utf8.encode name)).2.push x).push v).value ((m₀.push v).absolute i) = .table t := by
    intro x
    have hl' : Laid b (below ++ .table t :: (above ++ [x, v])) (((m₀.intern (Utf8.encode name)).2.push x).push v) := by
      have hknown : Laid b (below ++ .table t :: above) (m₀.intern (Utf8.encode name)).2 := hl₀.of_eq rfl rfl
      simpa using (hknown.push (v := x)).push (v := v)
    rw [hi]
    exact hl'.value_fromBottom hb hn
  rw [setField_table hframed hat hnewindex]
  let stored := (m₀.intern (Utf8.encode name)).2.setEntry t (.string (m₀.intern (Utf8.encode name)).1) v
  have hpop : (stored.push v).pop 1 = stored := pop_push (m := stored) hframed
  exact congrArg (EStateM.Result.ok ()) hpop.symm

end Act

/-! ## Collections -/

/-- What a collection calls leaves the functions in stock: nothing is called as nothing has a class, or the host keeps
    the library, which has all its functions. -/
def Host.Spares (host : Host) (l : Library) (stock : List (String × NativeCode)) : Prop :=
  l.classes = [] ∨ host.Keeps l ∧ Class.functions ⊆ stock ∧ stock ⊆ Class.functions

theorem Host.Spares.cons {host : Host} {l : Library} {stock : List (String × NativeCode)} {f : String × NativeCode}
    (h : host.Spares l stock) (hf : f ∈ Class.functions) : host.Spares l (f :: stock) :=
  h.imp_right fun ⟨hkeeps, hall, honly⟩ =>
    ⟨hkeeps, fun _ hg => List.mem_cons_of_mem f (hall hg), List.cons_subset.mpr ⟨hf, honly⟩⟩

namespace Machine

variable {m m' m'' : Machine} {s : List Value}

/-- The userdata among some values are the same. -/
def SameUserdata (s : List Value) (m m' : Machine) : Prop :=
  ∀ slot, .userdata slot ∈ s → m'.heap.userdata? slot = m.heap.userdata? slot

theorem SameUserdata.trans (h : SameUserdata s m m') (h' : SameUserdata s m' m'') : SameUserdata s m m'' :=
  fun slot hslot => (h' slot hslot).trans (h slot hslot)

theorem sameUserdata_cycle (hs : m.heap.Sound) : SameUserdata m.stack.toList m m.cycle.2.2 := by
  intro slot hslot
  cases hu : m.heap.userdata? slot with
  | some u =>
      exact userdata?_cycle_of_kept hs hu (.inl (.start (.stack (Array.mem_toList_iff.mp hslot)) rfl))
  | none =>
      refine Option.eq_none_iff_forall_ne_some.mpr fun u hu' => ?_
      rw [userdata?_cycle hu'] at hu
      cases hu

end Machine

namespace Act

variable {ε : Type} {host : Host} {m : Machine} {l : Library} {stock : List (String × NativeCode)} {b : Nat}
  {s : List Value}

/-- Where no userdata has a metatable, a collection calls nothing. -/
theorem collectIfDue_quiet (host : Host) (hopen : m.closed = false)
    (hplain : ∀ {slot u}, m.heap.userdata? slot = some u → u.metatable = none) :
    ∃ m', (collectIfDue : Act ε Unit) host m = .ok () m' ∧ (m' = m ∨ m' = m.cycle.2.2) := by
  have hquiet : m.NoFinalizers := by
    rintro mt ⟨slot, u, hu, -, hmeta⟩
    rw [hplain hu] at hmeta
    cases hmeta
  obtain ⟨m', hrun, rfl | ⟨freed, hcollect⟩⟩ := collectIfDue_cases (ε := ε) host m
  · exact ⟨_, hrun, .inl rfl⟩
  · obtain ⟨m'', hqueue, hended⟩ := collect_open (ε := ε) host hopen
    rw [Machine.cycle_queue_nil hquiet] at hqueue
    obtain rfl : m.cycle.2.2 = m'' := by cases hqueue; rfl
    rw [hended] at hcollect
    cases hcollect
    exact ⟨_, hrun, .inr rfl⟩

/-- A collection leaves the functions in stock. -/
theorem collectIfDue_equipped (hhost : host.Lawful) (hspares : host.Spares l stock) (hl : Laid b s m)
    (hm : m.Framed) (h : m.Equipped l stock) : ∃ m', (collectIfDue : Act ε Unit) host m = .ok () m' ∧ Laid b s m' ∧
      m'.Equipped l stock ∧ (l.classes = [] → SameUserdata s m m') := by
  by_cases hnone : l.classes = []
  · have hplain : ∀ {slot u}, m.heap.userdata? slot = some u → u.metatable = none := fun hu =>
      (h.instances hu).resolve_right fun ⟨c, hc, _⟩ => by rw [hnone] at hc; cases hc
    obtain ⟨m', hrun, rfl | rfl⟩ := collectIfDue_quiet (ε := ε) host h.opened hplain
    · exact ⟨m', hrun, hl, h, fun _ _ _ => rfl⟩
    · obtain ⟨heap, events, heq⟩ := m.cycle_eq
      refine ⟨_, hrun, hl.of_eq (by rw [heq]) (by rw [heq]), h.cycle, fun _ => ?_⟩
      rw [← hl.stack]
      exact sameUserdata_cycle h.sound
  · obtain ⟨hkeeps, hall, honly⟩ := hspares.resolve_left hnone
    obtain ⟨m', hrun, -⟩ := collectIfDue_cases (ε := ε) host m
    have hkept := collectIfDue_keeps.keeps (ε := ε) hkeeps hm (h.mono hall) trivial
    rw [Op.after_ok hrun] at hkept
    have hlaid := (collectIfDue_spec s fun _ => False).ok hhost hm hl hrun (hkept.opened.trans h.opened.symm)
    exact ⟨m', hrun, hlaid, hkept.mono honly, fun hempty => absurd hempty hnone⟩

/-! ## The functions of the library -/

/-- Functions are put in stock. -/
theorem setFunctions_equipped (hhost : host.Lawful) {functions : List (String × NativeCode)}
    (hfunctions : functions ⊆ Class.functions) (hstock : stock ⊆ Class.functions) (hspares : host.Spares l stock)
    (hl : Laid b (s ++ [.table l.functions]) m) (hb : b ≤ s.length) (h : m.Equipped l stock) :
    ∃ m', setFunctions functions host m = .ok () m' ∧ Laid b (s ++ [.table l.functions]) m' ∧
      m'.Equipped l (functions.reverse ++ stock) ∧
        (l.classes = [] → SameUserdata (s ++ [.table l.functions]) m m') := by
  induction functions generalizing m stock with
  | nil => exact ⟨m, rfl, hl, h, fun _ _ _ => rfl⟩
  | cons f rest ih =>
      obtain ⟨hf, hrest⟩ := List.cons_subset.mp hfunctions
      have hm : m.Framed := by
        unfold Framed
        rw [hl.base, hl.size, List.length_append]
        omega
      obtain ⟨m₁, hdue, hl₁, h₁, hsame₁⟩ := collectIfDue_equipped (ε := ScriptError) hhost hspares hl hm h
      let fn : Closure Native := ⟨⟨.code f.2, .named f.1⟩, #[]⟩
      let made : Machine := { m₁ with heap := (m₁.heap.newFunction fn).2 }
      let v : Value := .function (m₁.heap.newFunction fn).1
      have hmade : (made.push v).Equipped l stock := (h₁.allocates (Heap.allocates_newFunction h₁.sound fn)).push
      have hpush := pushNative_eq f.2 (.named f.1) hdue
      have hlmade : Laid b (s ++ [.table l.functions]) made := hl₁.of_eq rfl rfl
      have hl₂ : Laid b (s ++ .table l.functions :: [] ++ [v]) (made.push v) := hlmade.push
      have htop := hl₂.top
      have hi : (made.push v).absolute (.fromTop 2) = .fromBottom (s.length - b + 1) := by
        rw [absolute, htop]
        simp only [List.length_append, List.length_cons, List.length_nil]
        rw [if_pos (by omega)]
        congr 1
        omega
      have hplain : ((made.push v).heap.table l.functions).metatable = none := hmade.plain _ List.mem_cons_self
      have hset := setField_plain host f.1 hl₂ hb hi (by omega) hplain
      let id := ((made.push v).intern (Utf8.encode f.1)).1
      let assigned := ((made.push v).intern (Utf8.encode f.1)).2.setEntry l.functions (.string id) v
      let stored := assigned.pop 1
      have hcode : made.Implements v f.2 := implements_newFunction h₁.sound rfl rfl
      have hstored : stored.Equipped l (f :: stock) :=
        ((hmade.intern _).setEntry_function hf hstock StringPool.intern_found
          (hcode.extend fun hid => hid)).of_heap rfl rfl rfl rfl rfl rfl
      have hlassigned : Laid b (s ++ [.table l.functions] ++ [v]) assigned := hl₂.of_eq rfl rfl
      have hl₃ : Laid b (s ++ [.table l.functions]) stored :=
        hlassigned.pop (by rw [List.length_append]; omega) rfl
      obtain ⟨m', hrun, hl', h', hsame'⟩ := ih hrest (List.cons_subset.mpr ⟨hf, hstock⟩) (hspares.cons hf) hl₃ hstored
      refine ⟨m', ?_, hl', by rw [List.reverse_cons, List.append_assoc]; exact h', fun hnone => ?_⟩
      · rw [setFunctions, bind_ok hpush, bind_ok hset]
        exact hrun
      · have hput : SameUserdata (s ++ [.table l.functions]) m₁ stored := fun _ _ => rfl
        exact ((hsame₁ hnone).trans hput).trans (hsame' hnone)

end Act

/-! ## Machines without the library -/

namespace Machine

/-- Nothing of the library is there yet: the global `class` is missing, nothing is registered under a name, no function
    of the library is cached, and no userdata has a metatable. -/
structure Bare (m : Machine) : Prop where
  sound : m.heap.Sound
  strings : m.strings.Sound
  opened : m.closed = false
  apart : m.registry ≠ m.globals
  present : ∀ t, t = m.registry ∨ t = m.globals → m.heap.tables.get? t ≠ none
  direct : (m.heap.table m.globals).metatable = none
  missing : ∀ id : StringId, (m.heap.table m.globals).get (.string id) ≠ .nil →
    ∃ bytes, m.strings.strings[id]? = some bytes ∧ bytes ≠ Utf8.encode "class"
  unregistered : ∀ id : StringId, (m.heap.table m.registry).get (.string id) = .nil
  uncached : ∀ code ∈ Class.codes, m.cache.get? (.token (Class.token code)) = none
  plain : ∀ {slot u}, m.heap.userdata? slot = some u → u.metatable = none

variable {m m' : Machine} {id : StringId} {t : Nat} {v : Value}

namespace Bare

/-- A machine where registry and globals are as they were. -/
theorem of_kept (h : m.Bare) (sound : m'.heap.Sound) (pool : m'.strings.Sound)
    (strings : m.strings.Extends m'.strings) (registry : m'.registry = m.registry) (globals : m'.globals = m.globals)
    (closed : m'.closed = m.closed) (cache : m'.cache = m.cache)
    (tables : ∀ t, t = m.registry ∨ t = m.globals → m'.heap.tables.get? t = m.heap.tables.get? t)
    (plain : ∀ {slot u}, m'.heap.userdata? slot = some u → u.metatable = none) : m'.Bare := by
  have hregistry := table_of_slot (tables _ (.inl rfl))
  have hglobals := table_of_slot (tables _ (.inr rfl))
  refine ⟨sound, pool, closed.trans h.opened, by rw [registry, globals]; exact h.apart, fun t ht => ?_, ?_,
    fun id hid => ?_, fun id => ?_, cache ▸ h.uncached, plain⟩
  · rw [registry, globals] at ht
    rw [tables t ht]
    exact h.present t ht
  · rw [globals, hglobals]
    exact h.direct
  · rw [globals, hglobals] at hid
    obtain ⟨bytes, hbytes, hne⟩ := h.missing id hid
    exact ⟨bytes, strings id _ hbytes, hne⟩
  · rw [registry, hregistry]
    exact h.unregistered id

theorem intern (h : m.Bare) (bytes : Bytes) : (m.intern bytes).2.Bare :=
  h.of_kept h.sound (StringPool.intern_sound h.strings) (m.strings.extends_intern bytes) rfl rfl rfl rfl
    (fun _ _ => rfl) h.plain

theorem field_class (h : m.Bare) : (m.intern (Utf8.encode "class")).2.field m.globals "class" = .nil := by
  by_contra hne
  rw [field_intern h.strings] at hne
  obtain ⟨bytes, hbytes, hother⟩ := (h.intern _).missing _ hne
  exact hother (Option.some.inj (hbytes.symm.trans StringPool.intern_found))

theorem push (h : m.Bare) : (m.push v).Bare :=
  h.of_kept h.sound h.strings (.refl _) rfl rfl rfl rfl (fun _ _ => rfl) h.plain

theorem of_push (h : (m.push v).Bare) : m.Bare :=
  h.of_kept h.sound h.strings (.refl _) rfl rfl rfl rfl (fun _ _ => rfl) h.plain

theorem newTable (h : m.Bare) : { m with heap := m.heap.newTable.2 }.Bare := by
  have halloc := Heap.allocates_newTable h.sound
  refine h.of_kept (halloc.change.sound h.sound) h.strings (.refl _) rfl rfl rfl rfl (fun t ht => ?_) h.plain
  have hthere : m.heap.contents? ⟨.table, t⟩ ≠ none := fun hnone => h.present t ht (Option.map_eq_none_iff.mp hnone)
  exact Option.map_injective (fun _ _ heq => Heap.Contents.table.inj heq) (halloc.keeps hthere)

theorem cycle (h : m.Bare) : m.cycle.2.2.Bare := by
  obtain ⟨heap, events, heq⟩ := m.cycle_eq
  refine h.of_kept (cycle_sound h.sound) (by rw [heq]; exact h.strings) (by rw [heq]; exact .refl _) (by rw [heq])
    (by rw [heq]) (by rw [heq]) (by rw [heq]) (fun t ht => tables_cycle h.sound (.inl ?_))
    fun hu => h.plain (userdata?_cycle hu)
  rcases ht with rfl | rfl
  · exact .start .registry rfl
  · exact .start .globals rfl

theorem collectIfDue {ε : Type} (host : Host) (h : m.Bare) : ∃ heap events,
    (Act.collectIfDue : Act ε Unit) host m = .ok () { m with heap, events } ∧ { m with heap, events }.Bare ∧
      SameUserdata m.stack.toList m { m with heap, events } := by
  obtain ⟨m', hrun, rfl | rfl⟩ := Act.collectIfDue_quiet (ε := ε) host h.opened h.plain
  · exact ⟨m'.heap, m'.events, hrun, h, fun _ _ => rfl⟩
  · have hcycle := h.cycle
    have hsame := sameUserdata_cycle h.sound
    obtain ⟨heap, events, heq⟩ := m.cycle_eq
    rw [heq] at hrun hcycle hsame
    exact ⟨heap, events, hrun, hcycle, hsame⟩

/-- The global table is there, without functions. -/
theorem equipped (h : m.Bare) (ht : t ≠ m.registry ∧ t ≠ m.globals) (hthere : m.heap.tables.get? t ≠ none)
    (hplain : (m.heap.table t).metatable = none) (hid : m.strings.strings[id]? = some (Utf8.encode "class")) :
    ∃ l : Library, l.classes = [] ∧ l.functions = t ∧ (m.setEntry m.globals (.string id) (.table t)).Equipped l [] := by
  let l : Library :=
    { registry := m.registry
      globals := m.globals
      functions := t
      classes := []
      distinct := by simp [h.apart, ht.1.symm, ht.2.symm]
      names := List.nodup_nil }
  have hchange : m.heap.Change (m.setEntry m.globals (.string id) (.table t)).heap := .entry _ _ _
  refine ⟨l, rfl, rfl, hchange.sound h.sound, h.strings, h.opened, rfl, rfl, fun t' ht' => tables_setEntry_ne_none ?_,
    entry_setEntry (h.present _ (.inr rfl)) hid, fun f hf => (by cases hf), fun code hcode v hv => ?_,
    fun c hc => (by cases hc), fun t' ht' => ?_, fun c hc => (by cases hc), fun other hother => ?_,
    fun hu => .inl (h.plain hu)⟩
  · simp only [Library.tables, l, List.map_nil, List.mem_cons, List.not_mem_nil, or_false] at ht'
    rcases ht' with rfl | rfl | rfl
    · exact h.present _ (.inl rfl)
    · exact h.present _ (.inr rfl)
    · exact hthere
  · have hnone : m.cache.get? (.token (Class.token code)) = some v := hv
    rw [h.uncached code hcode] at hnone
    cases hnone
  · obtain rfl : t' = t := List.mem_singleton.mp ht'
    exact metatable_setEntry.trans hplain
  · have hsame : ((m.setEntry m.globals (.string id) (.table t)).heap.table m.registry).get (.string other) =
        (m.heap.table m.registry).get (.string other) := get_setEntry_other fun heq => absurd heq h.apart
    exact absurd (hsame.trans (h.unregistered other)) hother

end Bare

theorem bare_create (limits : Limits) : (create limits).Bare where
  sound := (intact_create limits).heap.sound
  strings := (named_create limits).sound
  opened := rfl
  apart := Nat.zero_ne_one
  present t ht := by rcases ht with rfl | rfl <;> exact Option.some_ne_none _
  direct := rfl
  missing id hid := absurd rfl hid
  unregistered _ := rfl
  uncached _ _ := rfl
  plain hu := by cases hu

end Machine

/-! ## The frame -/

/-- Stack, frames, handlers and limits are as they were. -/
structure Machine.Level (m m' : Machine) : Prop where
  stack : m'.stack = m.stack
  frames : m'.frames = m.frames
  guards : m.guards = [] → m'.guards = []
  limits : m'.limits = m.limits

namespace Act

variable {host : Host} {m : Machine} {l : Library}

theorem Lawful.level {ε α : Type} {x : Act ε α} {a : α} {m' : Machine} (hx : x.Lawful) (hhost : host.Lawful)
    (hm : m.Framed) (hrun : x host m = .ok a m') (hclosed : m'.closed = m.closed)
    (hl : Laid m.base m.stack.toList m') : Level m m' := by
  have hruns := hx.run_ok hhost hm hrun
  have hisolated := hruns.isolated hm hclosed
  refine ⟨Array.toList_inj.mp hl.stack, hisolated.frames, fun hnone => ?_, hruns.limits⟩
  have hhandlers := hisolated.handlers
  rw [hnone] at hhandlers
  exact List.map_eq_nil_iff.mp hhandlers

/-! ## Installing the library -/

/-- The global table `class` is found. -/
theorem findTable_equipped (host : Host) (hm : m.Framed) (h : m.Equipped l) :
    findTable "class" host m = .ok () (m.push (.table l.functions)) := by
  obtain ⟨id, hid, hget⟩ := h.shelf
  have hknown : m.intern (Utf8.encode "class") = (id, m) := intern_known h.strings hid
  have hfield : (m.intern (Utf8.encode "class")).2.field m.globals "class" = .table l.functions := by
    rw [hknown, field_eq h.strings hid, h.globals, hget]
  rw [findTable_eq, show Path.segments "class" = ["class"] by decide +kernel,
    enterTables_found hm h.strings hfield rfl, hknown]
  rfl

/-- The global table `class` is made. -/
theorem findTable_bare (host : Host) (hm : m.Framed) (h : m.Bare) : ∃ l m₁, l.classes = [] ∧
    findTable "class" host m = .ok () (m₁.push (.table l.functions)) ∧ m₁.Equipped l [] ∧ m₁.stack = m.stack ∧
      m₁.frames = m.frames ∧ SameUserdata m.stack.toList m m₁ := by
  let known := (m.intern (Utf8.encode "class")).2
  have hknown : known.Bare := h.intern _
  have hmissing : known.field m.globals "class" = .nil := h.field_class
  obtain ⟨heap, events, hdue, hbare, hsame⟩ :=
    Bare.collectIfDue (ε := ScriptError) host (hknown.push (v := .table m.globals))
  let left : Machine := { known with heap, events }
  have hleft : left.Bare := Bare.of_push (v := .table m.globals) hbare
  have hid : left.strings.strings[(m.intern (Utf8.encode "class")).1]? = some (Utf8.encode "class") :=
    StringPool.intern_found
  have halloc := Heap.allocates_newTable hleft.sound
  have hmade := hleft.newTable
  have hnew : left.heap.newTable.2.tables.get? left.heap.newTable.1 = some {} :=
    Heap.contents?_table.mp halloc.object
  have hfresh : ∀ t, left.heap.tables.get? t ≠ none → left.heap.newTable.1 ≠ t := by
    rintro _ ht rfl
    exact ht (Option.map_eq_none_iff.mp halloc.fresh)
  obtain ⟨l, hclasses, hfunctions, hequipped⟩ := hmade.equipped
    ⟨hfresh _ (hleft.present _ (.inl rfl)), hfresh _ (hleft.present _ (.inr rfl))⟩ (hnew ▸ Option.some_ne_none _)
    (by rw [table_of_get hnew]) hid
  have hentered := enterNew_eq (show left.Framed from hm) hleft.strings hdue hid
  have hrun : enterTables (.moduleConflict "class") ["class"] host (m.push (.table m.globals)) = _ :=
    (enterTables_missing hm h.strings hmissing).trans ((bind_ok hentered).trans rfl)
  refine ⟨l, _, hclasses, ?_, hequipped, rfl, rfl, fun slot hslot => ?_⟩
  · rw [findTable_eq, show Path.segments "class" = ["class"] by decide +kernel, hrun, hfunctions]
    rfl
  · refine hsame slot ?_
    rw [Machine.push, Array.toList_push]
    exact List.mem_append_left _ hslot

/-- The functions are set in the table that was found. -/
theorem installClasses_found {stock : List (String × NativeCode)} {m₁ : Machine} {b : Nat} {s : List Value}
    (hhost : host.Lawful) (hspares : host.Spares l stock) (hstock : stock ⊆ Class.functions)
    (hfind : findTable "class" host m = .ok () (m₁.push (.table l.functions))) (hl : Laid b s m₁)
    (hb : b ≤ s.length) (h : m₁.Equipped l stock) : ∃ m', installClasses host m = .ok () m' ∧ Laid b s m' ∧
      m'.Equipped l ∧ (l.classes = [] → SameUserdata s m₁ m') := by
  obtain ⟨m₂, hset, hl₂, h₂, hsame⟩ :=
    setFunctions_equipped hhost (List.Subset.refl _) hstock hspares hl.push hb h.push
  refine ⟨m₂.pop 1, ?_, hl₂.pop hb rfl, (h₂.mono fun f hf => ?_).pop, fun hnone slot hslot => ?_⟩
  · rw [installClasses, register, bind_ok hfind, bind_ok hset]
    rfl
  · exact List.mem_append_left _ (List.mem_reverse.mpr hf)
  · exact hsame hnone slot (List.mem_append_left _ hslot)

theorem installClasses_equipped (hkeeps : host.Keeps l) (hm : m.Framed) (h : m.Equipped l) :
    ∃ m', installClasses host m = .ok () m' ∧ Laid m.base m.stack.toList m' ∧ m'.Equipped l := by
  have hb : m.base ≤ m.stack.toList.length := by
    rw [Array.length_toList]
    exact hm
  obtain ⟨m', hrun, hl, h', -⟩ := installClasses_found hkeeps.lawful
    (.inr ⟨hkeeps, List.Subset.refl _, List.Subset.refl _⟩) (List.Subset.refl _) (findTable_equipped host hm h)
    ⟨rfl, rfl⟩ hb h
  exact ⟨m', hrun, hl, h'⟩

theorem installClasses_bare (hhost : host.Lawful) (hm : m.Framed) (h : m.Bare) : ∃ l m', l.classes = [] ∧
    installClasses host m = .ok () m' ∧ Laid m.base m.stack.toList m' ∧ m'.Equipped l ∧
      SameUserdata m.stack.toList m m' := by
  have hb : m.base ≤ m.stack.toList.length := by
    rw [Array.length_toList]
    exact hm
  obtain ⟨l, m₁, hclasses, hfind, h₁, hstack, hframes, hsame₁⟩ := findTable_bare host hm h
  have hl : Laid m.base m.stack.toList m₁ := Laid.of_eq ⟨rfl, rfl⟩ hframes hstack
  obtain ⟨m', hrun, hl', h', hsame⟩ :=
    installClasses_found hhost (.inl hclasses) (List.nil_subset _) hfind hl hb h₁
  exact ⟨l, m', hclasses, hrun, hl', h', hsame₁.trans (hsame hclasses)⟩

/-! ## Functions of the library -/

/-- A function is looked up among the globals once the library is there. -/
theorem pushClassFunction_equipped (host : Host) (code : NativeCode) (hm : m.Framed) (h : m.Equipped l) :
    pushClassFunction code host m = cachedGlobal (Class.path code) (.token (Class.token code)) host m := by
  have hpop : (m.push (.table l.functions)).pop 1 = m := pop_push hm
  rw [pushClassFunction, run_bind, cacheGet_eq]
  cases hcached : m.cache.get? (.token (Class.token code)) with
  | some v =>
      rw [cachedGlobal, run_bind, cacheGet_eq, hcached]
      simp only [Bool.not_true, Bool.false_eq_true, if_false]
  | none =>
      simp only [Bool.not_false, if_true]
      rw [bind_ok (getGlobal_class host hm h.strings (h.globals ▸ h.shelf)), run_bind, run_modify]
      dsimp only
      rw [hpop, if_neg fun hne => hne rfl]

theorem getGlobal_missing (host : Host) (hm : m.Framed) (h : m.Bare) : getGlobal "class" host m =
    .ok .nil ((m.intern (Utf8.encode "class")).2.push .nil) := by
  let known := (m.intern (Utf8.encode "class")).2
  have hmissing : known.field m.globals "class" = .nil := h.field_class
  have hindex : (m.metafield (.table m.globals) .index).isNil = true := by
    have hnone : m.metatable? (.table m.globals) = none := h.direct
    rw [metafield, metaEntry, hnone]
    rfl
  have hfollow : followPath (Path.segments "class") host (m.push (.table m.globals)) = .ok () (known.push .nil) := by
    rw [show Path.segments "class" = ["class"] by decide +kernel, followPath_table hm h.strings (.inr hindex), hmissing]
    rfl
  rw [getGlobal_found hfollow, kindAt_push (m := known) hm]
  rfl

/-- Where the library is missing it is installed first. -/
theorem pushClassFunction_bare (hhost : host.Lawful) (hm : m.Framed) (h : m.Bare) : ∃ l m', l.classes = [] ∧
    m'.Equipped l ∧ Level m m' ∧ SameUserdata m.stack.toList m m' ∧
      ∀ code ∈ Class.codes, pushClassFunction code host m = pushClassFunction code host m' := by
  let known := (m.intern (Utf8.encode "class")).2
  have hknown : known.Framed := hm
  obtain ⟨l, m', hclasses, hrun, hl, h', hsame⟩ := installClasses_bare hhost hknown (h.intern _)
  have hlevel : Level known m' :=
    installClasses_lawful.level hhost hknown hrun (h'.opened.trans (h.intern _).opened.symm) hl
  refine ⟨l, m', hclasses, h', ⟨hlevel.stack, hlevel.frames, hlevel.guards, hlevel.limits⟩, hsame, fun code hcode => ?_⟩
  have hm' : m'.Framed := (installClasses_lawful.run_ok hhost hknown hrun).framed hknown
  have hpop : (known.push .nil).pop 1 = known := pop_push hknown
  rw [pushClassFunction_equipped host code hm' h', pushClassFunction, run_bind, cacheGet_eq, h.uncached code hcode]
  simp only [Bool.not_false, if_true]
  rw [bind_ok (getGlobal_missing host hm h), run_bind, run_modify]
  dsimp only
  rw [hpop, if_pos (by decide), bind_ok hrun]

end Act

end ScriptHost
