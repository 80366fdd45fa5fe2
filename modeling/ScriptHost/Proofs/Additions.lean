import ScriptHost.Proofs.Footprint
import ScriptHost.Proofs.Namespaces

/-! # Additions

A store under a name that had no value takes nothing away: what a table gave and what it kept alive stays. So
code that makes tables and stores them only where nothing was adds to a machine, and whatever the roots reached
they reach on.
-/

namespace ScriptHost

namespace Table

variable {t t' t'' : Table} {entries replaced : List (Key × Value)} {key : Key} {v w : Value} {id : StringId}

/-- A table has at least the entries of another, keeps at least as much alive, and has the same metatable. -/
structure Within (t t' : Table) : Prop where
  get : ∀ {key}, (t.get key).isNil = false → t'.get key = t.get key
  references : ∀ {w}, w ∈ t.references → w ≠ .nil → w ∈ t'.references
  metatable : t'.metatable = t.metatable

theorem Within.trans (h : t.Within t') (h' : t'.Within t'') : t.Within t'' where
  get hv := by rw [h'.get (by rw [h.get hv]; exact hv), h.get hv]
  references hw hnil := h'.references (h.references hw hnil) hnil
  metatable := h'.metatable.trans h.metatable

/-- Only the entry that is read under a key is overwritten. -/
theorem mem_overwriteValue (h : overwriteValue? key v entries = some replaced) {e : Key × Value}
    (he : e ∈ entries) : e ∈ replaced ∨ entryValue entries key = e.2 := by
  induction entries generalizing replaced with
  | nil => cases he
  | cons first rest ih =>
      obtain ⟨k, w⟩ := first
      rw [overwriteValue?] at h
      by_cases hk : k = key
      · subst hk
        rw [if_pos rfl] at h
        cases h
        rcases List.mem_cons.mp he with rfl | he
        · exact .inr (by rw [entryValue, lookup_cons, if_pos rfl]; rfl)
        · exact .inl (List.mem_cons_of_mem _ he)
      · rw [if_neg hk] at h
        obtain ⟨tail, htail, rfl⟩ := Option.map_eq_some_iff.mp h
        rcases List.mem_cons.mp he with rfl | he
        · exact .inl List.mem_cons_self
        · rw [entryValue, lookup_cons, if_neg (Ne.symm hk)]
          exact (ih htail he).imp_left (List.mem_cons_of_mem _)

theorem mem_storeEntry_of_mem (hkey : entryValue entries key = .nil) {e : Key × Value} (he : e ∈ entries)
    (hv : e.2 ≠ .nil) : e ∈ storeEntry entries key v := by
  unfold storeEntry
  cases h : overwriteValue? key v entries with
  | some replaced => exact (mem_overwriteValue h he).resolve_right fun heq => hv (heq.symm.trans hkey)
  | none =>
      dsimp only
      split
      · exact he
      · exact List.mem_append_left _ he

theorem within_set (hkey : t.get (.string id) = .nil) : t.Within (t.set (.string id) v) where
  get {k} hv := by
    have hk : k ≠ .string id := by
      rintro rfl
      rw [hkey] at hv
      cases hv
    have hentry : ∀ k' ≠ .string id, entryValue (storeEntry t.entries (.string id) v) k' =
        entryValue t.entries k' := fun k' hk' => by rw [entryValue_storeEntry, if_neg hk']
    cases k with
    | integer i =>
        change (t.set (.string id) v).getInt i = t.getInt i
        have harray : (t.set (.string id) v).arrayIndex? i = t.arrayIndex? i := rfl
        unfold getInt
        rw [harray]
        cases t.arrayIndex? i with
        | some n => rfl
        | none => exact hentry _ hk
    | string | float | object | boolean | light | foreign => exact hentry _ hk
  references {w} hw hnil := by
    rw [mem_references] at hw ⊢
    have hmem : ∀ {k u}, (k, u) ∈ t.entries → u ≠ .nil → (k, u) ∈ (t.set (.string id) v).entries :=
      mem_storeEntry_of_mem hkey
    rcases hw with (hitem | ⟨k, hentry⟩) | ⟨k, u, hentry, hu, hk⟩
    · exact .inl (.inl hitem)
    · exact .inl (.inr ⟨k, hmem hentry hnil⟩)
    · refine .inr ⟨k, u, hmem hentry ?_, hu, hk⟩
      rintro rfl
      cases hu
  metatable := metatable_set

end Table

namespace Heap

variable {β : Type} {h h' h'' : Heap β} {r : Ref} {v : Value}

/-- An object is as it was, or a table to which something was added. -/
def Adds (h h' : Heap β) (r : Ref) : Prop :=
  h'.contents? r = h.contents? r ∨
    ∃ t t' : Table, h.contents? r = some (.table t) ∧ h'.contents? r = some (.table t') ∧ t.Within t'

theorem Adds.trans (hadds : h.Adds h' r) (hadds' : h'.Adds h'' r) : h.Adds h'' r := by
  rcases hadds with hsame | ⟨t, t', ht, ht', hwithin⟩
  · rcases hadds' with hsame' | ⟨t, t', ht, ht', hwithin⟩
    · exact .inl (hsame'.trans hsame)
    · exact .inr ⟨t, t', hsame.symm.trans ht, ht', hwithin⟩
  · rcases hadds' with hsame' | ⟨t₁, t'', ht₁, ht'', hwithin'⟩
    · exact .inr ⟨t, t', ht, hsame'.trans ht', hwithin⟩
    · rw [ht'] at ht₁
      cases ht₁
      exact .inr ⟨t, t'', ht, ht'', hwithin.trans hwithin'⟩

theorem Adds.present (hadds : h.Adds h' r) (hr : h.contents? r ≠ none) : h'.contents? r ≠ none := by
  rcases hadds with hsame | ⟨t, t', -, ht', -⟩
  · rwa [hsame]
  · rw [ht']
    exact Option.some_ne_none _

/-- What an object holds it goes on holding. -/
theorem Adds.holds (hadds : h.Adds h' r) (hv : h.Holds r v) (hnil : v ≠ .nil) : h'.Holds r v := by
  rcases hadds with hsame | ⟨t, t', ht, ht', hwithin⟩
  · exact holds_congr hsame hv
  · obtain ⟨kind, slot⟩ := r
    cases kind with
    | function | userdata | boxed =>
        obtain ⟨_, -, hcontents⟩ := Option.map_eq_some_iff.mp ht
        cases hcontents
    | table =>
        rw [contents?_table] at ht ht'
        have hin := mem_references.mpr hv
        simp only [references, ht, List.mem_append] at hin
        refine mem_references.mp ?_
        simp only [references, ht', List.mem_append]
        rw [hwithin.metatable]
        exact hin.imp_right fun hin => hwithin.references hin hnil

theorem table_congr {slot : Nat} (hsame : h'.contents? ⟨.table, slot⟩ = h.contents? ⟨.table, slot⟩) :
    h'.table slot = h.table slot := by
  have hget : h'.tables.get? slot = h.tables.get? slot := by
    cases hold : h.tables.get? slot with
    | some t => exact contents?_table.mp (hsame.trans (contents?_table.mpr hold))
    | none =>
        rw [contents?, contents?, hold] at hsame
        exact Option.map_eq_none_iff.mp hsame
  rw [table, table, hget]

theorem Adds.get {slot : Nat} {key : Key} (hadds : h.Adds h' ⟨.table, slot⟩)
    (hv : ((h.table slot).get key).isNil = false) : (h'.table slot).get key = (h.table slot).get key := by
  rcases hadds with hsame | ⟨t, t', ht, ht', hwithin⟩
  · rw [table_congr hsame]
  · rw [contents?_table] at ht ht'
    rw [table, ht, Option.getD_some] at hv
    rw [table, table, ht, ht', Option.getD_some, Option.getD_some, hwithin.get hv]

end Heap

namespace Machine

variable {m m' m'' : Machine} {r : Ref} {v : Value} {name : String} {table : Nat}

/-- A machine to which something was added: all that no cycle missed is still there, with all it had, and none
    missed what the roots reached. -/
structure Augments (m m' : Machine) : Prop where
  others : ∃ heap strings events, m' = { m with heap, strings, events }
  log : ∃ new, m'.events = new ++ m.events
  strings : m.strings.Extends m'.strings
  adds : ∀ {r}, m.heap.contents? r ≠ none → Retains (.object r) m m' → m.heap.Adds m'.heap r
  retains : ∀ {r}, m.Reached r → Retains (.object r) m m'
  reached : ∀ {r}, m.Reached r → m'.Reached r

namespace Augments

theorem refl (m : Machine) : m.Augments m :=
  ⟨⟨_, _, _, rfl⟩, ⟨[], rfl⟩, .refl _, fun _ _ => .inl rfl, fun _ => .refl _ m, id⟩

theorem trans (h : m.Augments m') (h' : m'.Augments m'') : m.Augments m'' where
  others := by
    obtain ⟨heap, strings, events, rfl⟩ := h.others
    obtain ⟨heap', strings', events', rfl⟩ := h'.others
    exact ⟨heap', strings', events', rfl⟩
  log := by
    obtain ⟨first, hfirst⟩ := h.log
    obtain ⟨last, hlast⟩ := h'.log
    exact ⟨last ++ first, by rw [hlast, hfirst, List.append_assoc]⟩
  strings := h.strings.trans h'.strings
  adds hr hretains := by
    obtain ⟨hfirst, hlast⟩ := hretains.split h.log h'.log
    have hadds := h.adds hr hfirst
    exact hadds.trans (h'.adds (hadds.present hr) hlast)
  retains hr := (h.retains hr).trans (h'.retains (h.reached hr))
  reached hr := h'.reached (h.reached hr)

/-- The roots reach what they reached if all that they reached holds what it held. -/
theorem reached_of_adds {heap : Heap Native} {strings : StringPool} {events : List Event}
    (hadds : ∀ {r}, m.heap.contents? r ≠ none → m.Reached r → m.heap.Adds heap r) (hr : m.Reached r) :
    ({ m with heap, strings, events } : Machine).Reached r := by
  induction hr with
  | start hv hr => exact .start (hv.extended fun _ => id) hr
  | @step r v r' hreach hv hr ih =>
      have hnil : v ≠ .nil := by
        rintro rfl
        cases hr
      exact .step ih ((hadds (Heap.contents?_of_holds hv) hreach).holds hv hnil) hr

/-- A change of the heap that adds to every object that was there. -/
theorem of_heap {heap : Heap Native} (hadds : ∀ {r}, m.heap.contents? r ≠ none → m.heap.Adds heap r) :
    m.Augments { m with heap } :=
  ⟨⟨_, _, _, rfl⟩, ⟨[], rfl⟩, .refl _, fun hr _ => hadds hr, fun _ => .refl _ m,
    reached_of_adds fun hr _ => hadds hr⟩

theorem intern (m : Machine) (bytes : Bytes) : m.Augments (m.intern bytes).2 :=
  ⟨⟨_, _, _, rfl⟩, ⟨[], rfl⟩, m.strings.extends_intern bytes, fun _ _ => .inl rfl,
    fun _ => .refl _ m, reached_of_adds fun _ _ => .inl rfl⟩

theorem newTable (hm : m.heap.Sound) : m.Augments { m with heap := m.heap.newTable.2 } :=
  .of_heap fun hr => .inl ((Heap.allocates_newTable hm).keeps hr)

theorem setEntry {id : StringId} (hnil : (m.heap.table table).get (.string id) = .nil) :
    m.Augments (m.setEntry table (.string id) v) := by
  refine .of_heap fun {r} hr => ?_
  by_cases heq : r = ⟨.table, table⟩
  · subst heq
    obtain ⟨c, hc⟩ := Option.ne_none_iff_exists'.mp hr
    obtain ⟨t, ht, -⟩ := Option.map_eq_some_iff.mp hc
    rw [table_of_get ht] at hnil
    have hset : (m.setEntry table (.string id) v).heap.tables.get? table = some (t.set (.string id) v) := by
      rw [tables_setEntry, if_pos rfl, ht]
      rfl
    exact .inr ⟨t, _, Heap.contents?_table.mpr ht, Heap.contents?_table.mpr hset, Table.within_set hnil⟩
  · exact .inl (contents?_setEntry heq)

/-- A collection that enters no finalizer, while a value lies on top. -/
theorem of_tidied (h : Tidied (m.push v) m') (hlog : ∃ new, m'.events = new ++ m.events) :
    ∃ m₁, m' = m₁.push v ∧ m.Augments m₁ := by
  obtain ⟨heap, events, rfl⟩ := h.others
  have hpushed : ∀ {r}, m.Reached r → (m.push v).Reached r := fun {r} hr =>
    hr.mono fun _ hw => hw.extended fun _ => Array.mem_push_of_mem _
  have hadds : ∀ {r}, Retains (.object r) m { m with heap, events } → m.heap.Adds heap r :=
    fun hretains => .inl (h.kept hretains)
  refine ⟨{ m with heap, events }, rfl, ⟨_, _, _, rfl⟩, hlog, .refl _, fun _ => hadds,
    fun hr => h.retains (hpushed hr), reached_of_adds fun _ hr => hadds (h.retains (hpushed hr))⟩

/-- An entry with a value, in a table that the roots reached, is as it was. -/
theorem field (h : m.Augments m') (hs : m.strings.Sound) (hs' : m'.strings.Sound) (hname : m.Knows name)
    (ht : m.Reached ⟨.table, table⟩) (hv : m.field table name = v) (hnil : v ≠ .nil) :
    m'.field table name = v := by
  obtain ⟨id, hid⟩ := hname
  rw [field_eq hs hid] at hv
  rw [field_eq hs' (h.strings id _ hid), ← hv]
  have hvalue : ((m.heap.table table).get (.string id)).isNil = false := by
    refine Bool.eq_false_iff.mpr fun hisNil => hnil ?_
    rw [← hv, Value.eq_nil hisNil]
  refine Heap.Adds.get (h.adds ?_ (h.retains ht)) hvalue
  exact Heap.contents?_of_holds (Heap.holds_get hvalue)

/-- A way that starts at an entry with a value goes on from there. -/
theorem walk_through {rest : List String} {w : Value} (h : m.Augments m') (hs : m.strings.Sound) (hs' : m'.strings.Sound)
    (hname : m.Knows name) (ht : m.Reached ⟨.table, table⟩) (hw : m.field table name = w) (hnil : w ≠ .nil)
    (hrest : ∀ n ∈ rest, m'.Knows n) (hwalk : m'.walk w rest = v) :
    (∀ n ∈ name :: rest, m'.Knows n) ∧ m'.walk (.table table) (name :: rest) = v := by
  refine ⟨fun n hn => ?_, ?_⟩
  · rcases List.mem_cons.mp hn with rfl | hn
    · exact hname.extends h.strings
    · exact hrest n hn
  · rw [walk, h.field hs hs' hname ht hw hnil, hwalk]

end Augments

end Machine

end ScriptHost
