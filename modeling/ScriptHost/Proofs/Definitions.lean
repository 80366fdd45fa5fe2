import ScriptHost.Proofs.Setup

/-! # Defining classes

A class is a new table in the registry that is marked as a class and then filled. From the mark on the table belongs
to the library, and no entry that is stored under another name takes the mark away. So a definition comes to a library
with one class more.
-/

namespace ScriptHost

open Machine

/-- A library with one class more. -/
def Library.add (l : Library) (name : String) (t : Nat) (ht : t ∉ l.tables) (hname : name ∉ l.classes.map Prod.fst) :
    Library where
  registry := l.registry
  globals := l.globals
  functions := l.functions
  classes := (name, t) :: l.classes
  distinct := by
    have hperm : (l.registry :: l.globals :: l.functions :: ((name, t) :: l.classes).map Prod.snd).Perm
        (t :: l.tables) :=
      (List.perm_middle : ([l.registry, l.globals, l.functions] ++ t :: l.classes.map Prod.snd).Perm _)
    exact hperm.nodup_iff.mpr (List.nodup_cons.mpr ⟨ht, l.distinct⟩)
  names := List.nodup_cons.mpr ⟨hname, l.names⟩

namespace Machine.Equipped

variable {m : Machine} {l : Library} {t : Nat} {name : String} {id mark : StringId}

/-- A table that is registered and marked is a class. -/
theorem add (h : m.Equipped l) (ht : t ∉ l.tables) (hname : name ∉ l.classes.map Prod.fst)
    (hthere : m.heap.tables.get? t ≠ none) (hplain : (m.heap.table t).metatable = none)
    (hid : m.strings.strings[id]? = some (Utf8.encode name))
    (hmark : m.strings.strings[mark]? = some (Utf8.encode Class.markerField)) (b : Bool) :
    ((m.setEntry l.registry (.string id) (.table t)).setEntry t (.string mark) (.bool b)).Equipped
      (l.add name t ht hname) := by
  let registered := m.setEntry l.registry (.string id) (.table t)
  let marked := registered.setEntry t (.string mark) (.bool b)
  have hfirst : m.heap.Change registered.heap := .entry ..
  have hlast : registered.heap.Change marked.heap := .entry ..
  have hsound := hfirst.sound h.sound
  have hne : ∀ t' ∈ l.tables, t' ≠ t := fun t' ht' heq => ht (heq ▸ ht')
  have himplements : ∀ {v code}, m.Implements v code → marked.Implements v code := fun himplements =>
    himplements.extend fun hid => hlast.identity hsound (hfirst.identity h.sound hid)
  have hentry : ∀ {t' n v}, t' ∈ l.tables → registered.Entry t' n v → marked.Entry t' n v := fun ht' hv =>
    hv.setEntry fun heq => absurd heq (hne _ ht')
  have hpresent : ∀ {t'}, m.heap.tables.get? t' ≠ none → marked.heap.tables.get? t' ≠ none := fun ht' =>
    tables_setEntry_ne_none (tables_setEntry_ne_none ht')
  have hmetatable : ∀ t', (marked.heap.table t').metatable = (m.heap.table t').metatable := fun t' =>
    metatable_setEntry.trans metatable_setEntry
  refine ⟨hlast.sound hsound, h.strings, h.opened, h.registry, h.globals, fun t' ht' => hpresent ?_,
    hentry (globals_mem l) (h.shelf.setEntry fun heq => ?_), fun f hf => ?_,
    fun code hcode v hv => himplements (h.cached code hcode v hv), fun c hc => ?_, fun t' ht' => ?_, fun c hc => ?_,
    fun other hother => ?_, fun hu => ?_⟩
  · simp only [Library.tables, Library.add, List.map_cons, List.mem_cons] at ht'
    rcases ht' with rfl | rfl | rfl | rfl | ht'
    · exact h.present _ (registry_mem l)
    · exact h.present _ (globals_mem l)
    · exact h.present _ (functions_mem l)
    · exact hthere
    · exact h.present _ (List.mem_cons_of_mem _ (List.mem_cons_of_mem _ (List.mem_cons_of_mem _ ht')))
  · have hdistinct := l.distinct
    simp only [List.nodup_cons, List.mem_cons, not_or] at hdistinct
    exact absurd heq.symm hdistinct.1.1
  · obtain ⟨v, hv, hcode⟩ := h.stocked f hf
    exact ⟨v, hentry (functions_mem l) (hv.setEntry fun heq => absurd heq l.functions_ne.1), himplements hcode⟩
  · rcases List.mem_cons.mp hc with rfl | hc
    · exact ⟨b, entry_setEntry (tables_setEntry_ne_none hthere) hmark⟩
    · obtain ⟨b', hb⟩ := h.marked c hc
      exact ⟨b', hentry (class_mem hc) (hb.setEntry fun heq => absurd heq (Library.class_ne hc).1)⟩
  · rw [hmetatable]
    simp only [Library.add, List.map_cons, List.mem_cons] at ht'
    rcases ht' with rfl | rfl | ht'
    · exact h.plain _ List.mem_cons_self
    · exact hplain
    · exact h.plain _ (List.mem_cons_of_mem _ ht')
  · rcases List.mem_cons.mp hc with rfl | hc
    · exact hentry (registry_mem l) (entry_setEntry (h.present _ (registry_mem l)) hid)
    · refine hentry (registry_mem l) ((h.entered c hc).setEntry fun _ hsame => hname ?_)
      rw [Utf8.encode_injective (Option.some.inj (hid.symm.trans hsame))]
      exact List.mem_map_of_mem hc
  · have hsame : (marked.heap.table l.registry).get (.string other) =
        (registered.heap.table l.registry).get (.string other) :=
      get_setEntry_other fun heq => absurd heq (hne _ (registry_mem l))
    change (marked.heap.table l.registry).get (.string other) ≠ .nil at hother
    change ∃ c ∈ (name, t) :: l.classes, (marked.heap.table l.registry).get (.string other) = _ ∧ _
    rw [hsame] at hother ⊢
    by_cases heq : other = id
    · subst heq
      obtain ⟨table, htable⟩ := Option.ne_none_iff_exists'.mp (h.present _ (registry_mem l))
      refine ⟨(name, t), List.mem_cons_self, ?_, hid⟩
      rw [table_setEntry_get htable, Table.get_set_string, if_pos rfl]
    · rw [get_setEntry_other fun _ => heq] at hother ⊢
      obtain ⟨c, hc, hget, hbytes⟩ := h.registered other hother
      exact ⟨c, List.mem_cons_of_mem _ hc, hget, hbytes⟩
  · rcases h.instances hu with hnone | ⟨c, hc, hmeta⟩
    · exact .inl hnone
    · exact .inr ⟨c, List.mem_cons_of_mem _ hc, hmeta⟩

end Machine.Equipped

/-- A store under a name leaves what lies on the stack. -/
theorem Machine.setEntry_intern_push (m : Machine) (v w : Value) (slot : Nat) (bytes : Bytes) :
    ((m.push v).intern bytes).2.setEntry slot (.string ((m.push v).intern bytes).1) w =
      ((m.intern bytes).2.setEntry slot (.string (m.intern bytes).1) w).push v := rfl

theorem Machine.intern_setEntry (m : Machine) (slot : Nat) (key : Key) (v : Value) (bytes : Bytes) :
    (m.setEntry slot key v).intern bytes = ((m.intern bytes).1, (m.intern bytes).2.setEntry slot key v) := rfl

/-- A table has got its name. -/
def Machine.titled (m : Machine) (t : Nat) (name : String) : Machine :=
  let (id, m) := m.intern (Utf8.encode name)
  let (field, m) := m.intern (Utf8.encode Metafield.name.text)
  m.setEntry t (.string field) (.string id)

namespace Act

variable {host : Host} {m : Machine} {l : Library} {b n t : Nat} {below above s : List Value} {name : String}
  {c : String × Nat}

/-! ## A new metatable -/

/-- Gives the table on top its name, and registers it. -/
def registerTable (name : String) : Act ScriptError Bool := do
  modify (·.pushText name)
  Op.rawSetField (.fromTop 2) Metafield.name.text
  modify (·.pushAt .top)
  Op.rawSetField .registry name
  pure true

/-- A table gets its name, and then it is registered. -/
theorem registerTable_eq (host : Host) (name : String) (hm : m.Framed) :
    registerTable name host (m.push (.table t)) =
      .ok true ((((m.titled t name).intern (Utf8.encode name)).2.setEntry m.registry
        (.string ((m.titled t name).intern (Utf8.encode name)).1) (.table t)).push (.table t)) := by
  let text := (m.intern (Utf8.encode name)).2
  let w : Value := .string (m.intern (Utf8.encode name)).1
  let titled := m.titled t name
  have htext : text.Framed := hm
  have htitled : titled.Framed := hm
  have hbelow : ((text.push (.table t)).push w).value (((text.push (.table t)).push w).absolute (.fromTop 2)) =
      .table t := by
    have hpair : Laid text.base (text.stack.toList ++ .table t :: [w]) ((text.push (.table t)).push w) := by
      simpa using Laid.push (v := w) (Laid.push (v := .table t) (⟨rfl, rfl⟩ : Laid text.base text.stack.toList text))
    rw [value_absolute]
    exact hpair.value_fromTop (by rw [Array.length_toList]; exact htext) rfl
  have hname : Op.rawSetField (.fromTop 2) Metafield.name.text ((text.push (.table t)).push w) =
      .ok () (titled.push (.table t)) :=
    rawSetField_push (m := text.push (.table t)) Metafield.name.text (framed_push htext) hbelow
  have hcopy : (titled.push (.table t)).pushAt .top = (titled.push (.table t)).push (.table t) :=
    pushAt_of_value (topValue_push htitled)
  have hregister := rawSetField_push (m := titled.push (.table t)) (v := .table t) (i := .registry) name
    (framed_push htitled) (show _ = Value.table m.registry from rfl)
  rw [setEntry_intern_push] at hregister
  have htexted : (m.push (.table t)).pushText name = (text.push (.table t)).push w := rfl
  rw [registerTable, run_bind, run_modify]
  dsimp only
  rw [htexted, bind_ok (run_lift.trans hname), run_bind, run_modify]
  dsimp only
  rw [hcopy, bind_ok (run_lift.trans hregister)]
  rfl

/-- Nothing is registered under a name that no class has. -/
theorem getRegistered_new (h : m.Equipped l) (hname : name ∉ l.classes.map Prod.fst) :
    Op.getRegistered name m = .ok .nil ((m.intern (Utf8.encode name)).2.push .nil) := by
  have hnil : (m.heap.table m.registry).get (.string (m.intern (Utf8.encode name)).1) = .nil := by
    by_contra hne
    rw [h.registry] at hne
    obtain ⟨c, hc, -, hbytes⟩ := (h.intern (Utf8.encode name)).registered _ hne
    have hsame : name = c.1 :=
      Utf8.encode_injective (Option.some.inj ((StringPool.intern_found (p := m.strings)).symm.trans hbytes))
    exact hname (hsame ▸ List.mem_map_of_mem hc)
  have hread : Op.getRegistered name m = .ok _ ((m.intern (Utf8.encode name)).2.push _) := rawGetField_eq rfl
  rw [hread, hnil]
  rfl

/-- A new metatable is none of the library before it is registered. -/
theorem newMetatable_equipped (hkeeps : host.Keeps l) (hm : m.Framed) (hl : Laid b s m) (h : m.Equipped l)
    (hname : name ∉ l.classes.map Prod.fst) : ∃ m₁ t id, newMetatable name host m =
      .ok true ((m₁.setEntry l.registry (.string id) (.table t)).push (.table t)) ∧ m₁.Equipped l ∧ Laid b s m₁ ∧
        t ∉ l.tables ∧ m₁.heap.tables.get? t ≠ none ∧ (m₁.heap.table t).metatable = none ∧
        m₁.strings.strings[id]? = some (Utf8.encode name) := by
  let known := (m.intern (Utf8.encode name)).2
  have hframed : known.Framed := hm
  have hknown : known.Equipped l := h.intern _
  obtain ⟨left, hdue, -⟩ := collectIfDue_cases (ε := ScriptError) host known
  have hleft := collectIfDue_keeps.keeps (ε := ScriptError) hkeeps hframed hknown trivial
  rw [Op.after_ok hdue] at hleft
  have hlaid := (collectIfDue_spec s fun _ => False).ok hkeeps.lawful hframed (hl.of_eq rfl rfl) hdue
    (hleft.opened.trans hknown.opened.symm)
  let made : Machine := { left with heap := left.heap.newTable.2 }
  let t := left.heap.newTable.1
  have halloc := Heap.allocates_newTable hleft.sound
  have hthere : made.heap.tables.get? t = some {} := Heap.contents?_table.mp halloc.object
  have hfresh : t ∉ l.tables := fun hin => hleft.present t hin (Option.map_eq_none_iff.mp halloc.fresh)
  have hnew : (newTable : Act ScriptError Unit) host known = .ok () (made.push (.table t)) := bind_ok hdue
  have hmade : made.Framed := (collectIfDue_lawful.run_ok hkeeps.lawful hframed hdue).framed hframed
  have hregister := registerTable_eq (t := t) host name hmade
  have htitled : (made.titled t name).Equipped l :=
    (((hleft.allocates halloc).intern _).intern _).setEntry_other hfresh _ _
  have hmetatable : ((made.titled t name).heap.table t).metatable = none :=
    metatable_setEntry.trans (by rw [show Heap.table _ t = {} from table_of_get hthere])
  have hpresent : (made.titled t name).heap.tables.get? t ≠ none :=
    tables_setEntry_ne_none (hthere ▸ Option.some_ne_none _)
  have hlaid' : Laid b s (made.titled t name) := hlaid.of_eq rfl rfl
  generalize made.titled t name = titled at hregister htitled hmetatable hpresent hlaid'
  refine ⟨(titled.intern (Utf8.encode name)).2, t, (titled.intern (Utf8.encode name)).1, ?_, htitled.intern _,
    hlaid'.of_eq rfl rfl, hfresh, hpresent, hmetatable, StringPool.intern_found⟩
  have hpop : (known.push .nil).pop 1 = known := pop_push hframed
  rw [newMetatable, bind_ok (run_lift.trans (getRegistered_new h hname)), if_neg (by decide), run_bind, run_modify]
  dsimp only
  rw [hpop, bind_ok hnew]
  exact hregister.trans (by rw [show made.registry = l.registry from hleft.registry])

/-! ## Filling a metatable -/

section Repeating

variable {ε α : Type} {f : α → Act ε PUnit} {P E : Machine → Prop}

theorem forM_maintains {list : List α} (hf : ∀ a ∈ list, Maintains l P (f a) (fun _ => P) E) :
    Maintains l P (list.forM f) (fun _ => P) E := by
  induction list with
  | nil => exact .pure fun _ => id
  | cons a list ih =>
      exact .bind (hf a List.mem_cons_self) fun _ => ih fun a' ha' => hf a' (List.mem_cons_of_mem _ ha')

theorem optional_maintains {o : Option α} (hf : ∀ a, Maintains l P (f a) (fun _ => P) E) :
    Maintains l P (o.forM f) (fun _ => P) E := by
  cases o with
  | none => exact .pure fun _ => id
  | some a => exact hf a

end Repeating

/-- Fills a metatable that is marked. -/
def fillMarked (metatable : StackIndex) (d : ClassDef) : Act ScriptError Unit := do
  setPushed metatable Class.sizeField (modify (·.pushInt (wrapInt64 d.size)))
  d.constructor.forM fun code => setPushed metatable Class.constructorField (pushNative code)
  d.finalizer.forM fun code => setPushed metatable Metafield.finalizer.text (pushNative code)
  d.methods.forM fun (name, code) => setPushed metatable name (pushNative code (.named name))
  setPushed metatable Metafield.index.text (modify (·.pushAt metatable))
  d.peer.forM (installPeer metatable)
  modify (·.pop 1)

/-- No entry but its own takes the mark of a class away. -/
theorem setEntry_intern_class {v : Value} (h : m.Equipped l) (hc : c ∈ l.classes) (hname : name ≠ Class.markerField) :
    ((m.intern (Utf8.encode name)).2.setEntry c.2 (.string (m.intern (Utf8.encode name)).1) v).Equipped l := by
  refine (h.intern _).setEntry_class hc fun hmark => hname ?_
  exact Utf8.encode_injective (Option.some.inj ((StringPool.intern_found (p := m.strings)).symm.trans hmark))

/-- A raw field of a class, other than its mark. -/
theorem setPushed_maintains {push : Act ScriptError Unit} (hc : c ∈ l.classes) (hname : name ≠ Class.markerField)
    (hb : b ≤ below.length) (hn : b + n = below.length + 1)
    (hpush : Maintains l (Laid b (below ++ .table c.2 :: above)) push (fun _ => Pushed b (below ++ .table c.2 :: above))
      fun _ => False) :
    Maintains l (Laid b (below ++ .table c.2 :: above)) (setPushed (.fromBottom n) name push)
      (fun _ => Laid b (below ++ .table c.2 :: above)) fun _ => False := by
  refine .bind hpush fun _ => ⟨.lift (Op.rawSetField_lawful _ _), fun {host m} hhost hm h hp => ?_⟩
  obtain ⟨v, hl⟩ := hp
  have hl' := hl
  obtain ⟨m₀, rfl, hl₀⟩ := hl.eq_push
  rw [List.append_assoc, List.cons_append] at hl'
  have hat : (m₀.push v).value ((m₀.push v).absolute (.fromBottom n)) = .table c.2 := hl'.value_fromBottom hb hn
  have hframed : m₀.Framed := by
    unfold Framed
    rw [hl₀.base, hl₀.size, List.length_append]
    omega
  rw [run_lift, rawSetField_push name hframed hat]
  have h₀ : m₀.Equipped l := h.of_heap rfl rfl rfl rfl rfl rfl
  exact ⟨setEntry_intern_class h₀ hc hname, hl₀.of_eq rfl rfl⟩

/-- A field of a class, other than its mark. -/
theorem setField_maintains (hc : c ∈ l.classes) (hname : name ≠ Class.markerField) (hb : b ≤ below.length)
    (hn : b + n = below.length + 1) :
    Maintains l (Pushed b (below ++ .table c.2 :: above)) (setField (.fromBottom n) name)
      (fun _ => Laid b (below ++ .table c.2 :: above)) fun _ => False := by
  refine ⟨setField_lawful _ _, fun {host m} hhost hm h hp => ?_⟩
  obtain ⟨v, hl⟩ := hp
  have hplain : (m.heap.table c.2).metatable = none :=
    h.plain _ (List.mem_cons_of_mem _ (List.mem_map_of_mem hc))
  rw [setField_plain host name hl hb rfl hn hplain]
  let stored := (m.intern (Utf8.encode name)).2.setEntry c.2 (.string (m.intern (Utf8.encode name)).1) v
  have hstored : stored.Equipped l := setEntry_intern_class h hc hname
  have hl' : Laid b (below ++ .table c.2 :: above ++ [v]) stored := hl.of_eq rfl rfl
  refine ⟨hstored.pop, hl'.pop ?_ rfl⟩
  rw [List.length_append]
  omega

/-- The handlers of a peer are fields like others. -/
theorem installPeer_maintains (p : Peer) (hc : c ∈ l.classes) (hb : b ≤ below.length)
    (hn : b + n = below.length + 1) :
    Maintains l (Laid b (below ++ [.table c.2])) (installPeer (.fromBottom n) p)
      (fun _ => Laid b (below ++ [.table c.2])) fun _ => False := by
  have hb' : ∀ rest : List Value, b ≤ (below ++ .table c.2 :: rest).length := fun rest => by
    rw [List.length_append]
    omega
  have hpush : ∀ (behaviour : Behaviour) (above : List Value), Maintains l (Laid b (below ++ .table c.2 :: above))
      (pushFunction behaviour 0 .host : Act ScriptError Unit) (fun _ => Pushed b (below ++ .table c.2 :: above))
      fun _ => False := by
    intro behaviour above
    have hspec := pushFunction_spec (ε := ScriptError) behaviour .host (below ++ .table c.2 :: above) (t := []) (hb' _)
      rfl fun _ => False
    rw [List.append_nil] at hspec
    exact .of_spec hspec (.of_keeps (pushFunction_keeps _ _ _))
  refine .get_bind (installPeer_lawful _ p) fun m _ _ hl => ?_
  have hvalue : m.value (.fromBottom n) = .table c.2 := hl.value_fromBottom hb hn
  have habsolute : m.absolute (.fromBottom n) = .fromBottom n := rfl
  dsimp only
  rw [habsolute, hvalue]
  have hbound : Maintains l (Laid b (below ++ .table c.2 :: [])) (bindPeer p : Act ScriptError Unit)
      (fun _ m => ∃ reader, Pushed b (below ++ .table c.2 :: [reader]) m) fun _ => False := by
    refine .bind (hpush (.readProperty p) []) fun _ => .exists_pre fun reader => ?_
    have hlast := hpush (.writeProperty p) [reader]
    rw [List.append_assoc, List.cons_append, List.nil_append]
    exact hlast.post (fun _ _ h => ⟨reader, h⟩) fun _ => id
  refine .bind (hbound.pre fun _ heq => heq ▸ hl) fun _ => .exists_pre fun reader => ?_
  refine .bind (setField_maintains hc (by decide) hb hn) fun _ => ?_
  refine .bind (Q := fun _ => Laid b (below ++ .table c.2 :: [] ++ [reader, .table c.2]))
    (.modify (fun _ => leads_pushAt) fun m _ h hl => ⟨h.pushAt, ?_⟩) fun _ => ?_
  · have hv : m.value (.fromBottom n) = .table c.2 := hl.value_fromBottom hb hn
    rw [pushAt_of_value hv]
    simpa using hl.push (v := .table c.2)
  · refine .bind (.of_spec (pushFunction_spec _ .host _ (hb' []) rfl _) (.of_keeps (pushFunction_keeps _ _ _)))
      fun _ => setField_maintains hc (by decide) hb hn

/-- The rest of a definition succeeds, and keeps the library. -/
theorem fillMarked_maintains (d : ClassDef) (hc : c ∈ l.classes) (hb : b ≤ below.length)
    (hn : b + n = below.length + 1) (hmethods : ∀ f ∈ d.methods, f.1 ≠ Class.markerField) :
    Maintains l (Laid b (below ++ [.table c.2])) (fillMarked (.fromBottom n) d) (fun _ => Laid b below)
      fun _ => False := by
  have hfield : ∀ (name : String) (code : NativeCode) (origin : Origin), name ≠ Class.markerField →
      Maintains l (Laid b (below ++ [.table c.2])) (setPushed (.fromBottom n) name (pushNative code origin))
        (fun _ => Laid b (below ++ [.table c.2])) fun _ => False := fun name code origin hname =>
    setPushed_maintains hc hname hb hn (.of_spec (pushNative_spec code _ _) (.of_keeps (pushNative_keeps _ _)))
  have hmodify : ∀ (name : String) (push : Machine → Machine), name ≠ Class.markerField → (∀ m, Leads m (push m)) →
      (∀ m : Machine, m.Equipped l → (push m).Equipped l) →
      (∀ m, Laid b (below ++ [.table c.2]) m → Pushed b (below ++ [.table c.2]) (push m)) →
      Maintains l (Laid b (below ++ [.table c.2])) (setPushed (.fromBottom n) name (modify push))
        (fun _ => Laid b (below ++ [.table c.2])) fun _ => False := fun name push hname hleads hkeeps hpushed =>
    setPushed_maintains hc hname hb hn (.modify hleads fun m _ h hl => ⟨hkeeps m h, hpushed m hl⟩)
  refine .bind (hmodify _ _ (by decide) (fun _ => leads_pushInt) (fun _ h => h.pushInt)
    fun m hl => Reading.pushed_pushInt m hl) fun _ => ?_
  refine .bind (optional_maintains fun code => hfield _ code _ (by decide)) fun _ => ?_
  refine .bind (optional_maintains fun code => hfield _ code _ (by decide)) fun _ => ?_
  refine .bind (forM_maintains fun f hf => hfield f.1 f.2 _ (hmethods f hf)) fun _ => ?_
  refine .bind (hmodify _ _ (by decide) (fun _ => leads_pushAt) (fun _ h => h.pushAt) fun m hl => ⟨_, hl.push⟩)
    fun _ => ?_
  refine .bind (optional_maintains fun p => installPeer_maintains p hc hb hn) fun _ => ?_
  exact .modify (fun _ => leads_pop) fun _ _ h hl => ⟨h.pop, hl.pop hb rfl⟩

theorem fillMetatable_eq (d : ClassDef) : fillMetatable d = (do
    let m ← get
    setPushed (.fromBottom m.top) Class.markerField (modify (·.push (.bool true)))
    fillMarked (.fromBottom m.top) d) := rfl

/-- A new metatable that is registered is marked and filled, and then it is a class of the library. -/
theorem fillMetatable_equipped {d : ClassDef} {id : StringId} (hkeeps : ∀ l, host.Keeps l)
    (hmethods : ∀ f ∈ d.methods, f.1 ≠ Class.markerField) (h : m.Equipped l) (hl : Laid b s m) (hb : b ≤ s.length)
    (ht : t ∉ l.tables) (hname : d.name ∉ l.classes.map Prod.fst) (hthere : m.heap.tables.get? t ≠ none)
    (hplain : (m.heap.table t).metatable = none) (hid : m.strings.strings[id]? = some (Utf8.encode d.name)) :
    ∃ m', fillMetatable d host ((m.setEntry l.registry (.string id) (.table t)).push (.table t)) = .ok () m' ∧
      m'.Equipped (l.add d.name t ht hname) ∧ Laid b s m' := by
  let registered := m.setEntry l.registry (.string id) (.table t)
  let known := (m.intern (Utf8.encode Class.markerField)).2
  let mark := (m.intern (Utf8.encode Class.markerField)).1
  let marked := (known.setEntry l.registry (.string id) (.table t)).setEntry t (.string mark) (.bool true)
  have hstart : Laid b (s ++ [.table t]) (registered.push (.table t)) := Laid.push (hl.of_eq rfl rfl)
  have hframed : (registered.push (.table t)).Framed := by
    unfold Framed
    rw [hstart.base, hstart.size, List.length_append]
    omega
  have htop := hstart.top
  rw [List.length_append, List.length_singleton] at htop
  have hn : b + (registered.push (.table t)).top = s.length + 1 := by omega
  have hat : ((registered.push (.table t)).push (.bool true)).value
      (((registered.push (.table t)).push (.bool true)).absolute (.fromBottom (registered.push (.table t)).top)) =
        .table t := by
    have hpair : Laid b (s ++ .table t :: [.bool true]) ((registered.push (.table t)).push (.bool true)) := by
      simpa using hstart.push (v := .bool true)
    exact hpair.value_fromBottom hb hn
  have hmark := rawSetField_push Class.markerField hframed hat
  rw [setEntry_intern_push, intern_setEntry] at hmark
  have hset : setPushed (.fromBottom (registered.push (.table t)).top) Class.markerField
      (modify (·.push (.bool true))) host (registered.push (.table t)) = .ok () (marked.push (.table t)) := by
    rw [setPushed, run_bind, run_modify]
    exact run_lift.trans hmark
  have hadded : marked.Equipped (l.add d.name t ht hname) :=
    (h.intern _).add ht hname hthere hplain (m.strings.extends_intern _ id _ hid) StringPool.intern_found true
  have hlaid : Laid b (s ++ [.table t]) (marked.push (.table t)) := Laid.push (hl.of_eq rfl rfl)
  have hfill := (fillMarked_maintains d (c := (d.name, t)) List.mem_cons_self hb hn hmethods).ends
    (hkeeps (l.add d.name t ht hname)) (show (marked.push (.table t)).Framed from hframed) hadded.push hlaid
  rw [fillMetatable_eq, run_bind, run_get]
  dsimp only
  rw [bind_ok hset]
  cases hrun : fillMarked (.fromBottom (registered.push (.table t)).top) d host (marked.push (.table t)) with
  | ok u m' =>
      rw [hrun] at hfill
      exact ⟨m', rfl, hfill⟩
  | error e m' =>
      rw [hrun] at hfill
      exact hfill.2.elim

/-- A definition of a class that is new to the library. -/
theorem defineClass_installed {d : ClassDef} {m₁ : Machine} (hkeeps : ∀ l, host.Keeps l)
    (hinstall : installClasses host m = .ok () m₁) (hm : m₁.Framed) (h : m₁.Equipped l) (hl : Laid b s m₁)
    (hname : d.name ∉ l.classes.map Prod.fst) (hmethods : ∀ f ∈ d.methods, f.1 ≠ Class.markerField) :
    ∃ t ht m', defineClass d host m = .ok () m' ∧ m'.Equipped (l.add d.name t ht hname) ∧ Laid b s m' := by
  obtain ⟨m₂, t, id, hnew, h₂, hl₂, ht, hthere, hplain, hid⟩ := newMetatable_equipped (hkeeps l) hm hl h hname
  obtain ⟨m', hfill, h', hl'⟩ :=
    fillMetatable_equipped hkeeps hmethods h₂ hl₂ (hl.base_le hm) ht hname hthere hplain hid
  refine ⟨t, ht, m', ?_, h', hl'⟩
  rw [defineClass, bind_ok hinstall, bind_ok hnew]
  exact hfill

end Act

end ScriptHost
