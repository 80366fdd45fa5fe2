import ScriptHost.Proofs.Collection
import ScriptHost.Proofs.Globals
import ScriptHost.Proofs.Library

/-! # Places of globals

The leading segments of a dotted name lead from the table of globals through tables to the table where the last
segment names an entry. Tables may be shared and may contain each other, so that the entry may lie on the way to
itself. Reading and assigning find the same entry.
-/

namespace ScriptHost

namespace Utf8

theorem encode_injective : Function.Injective encode := Function.LeftInverse.injective decodeLossy_encode

end Utf8

namespace Machine

variable {m m' : Machine} {name n : String} {names path rest : List String} {v w : Value} {table slot id : Nat}

/-- The machine once some names are known. -/
def knowing (m : Machine) (names : List String) : Machine :=
  names.foldl (fun m name => (m.intern (Utf8.encode name)).2) m

/-- A name is known: it has a number. -/
def Knows (m : Machine) (name : String) : Prop := ∃ id : Nat, m.strings.strings[id]? = some (Utf8.encode name)

/-- The entry of a table under a name. -/
def field (m : Machine) (table : Nat) (name : String) : Value :=
  match m.strings.find? (Utf8.encode name) with
  | some id => (m.heap.table table).get (.string id)
  | none => .nil

/-- The value that some names lead to from a value, each being an entry of the table before. Nothing is led to from
    a value that is no table. -/
def walk (m : Machine) : Value → List String → Value
  | v, [] => v
  | .table table, name :: rest => walk m (m.field table name) rest
  | _, _ :: _ => .nil

/-- A value has no fields by which accesses would go on, as is so if it has no metatable. -/
structure Plain (m : Machine) (v : Value) : Prop where
  index : (m.metafield v .index).isNil = true
  newindex : (m.metafield v .newindex).isNil = true

/-! ## Known names -/

theorem knowing_eq (hs : m.strings.Sound) (names : List String) : ∃ strings,
    m.knowing names = { m with strings } ∧ strings.Sound ∧ m.strings.Extends strings := by
  induction names generalizing m with
  | nil => exact ⟨m.strings, rfl, hs, .refl _⟩
  | cons name rest ih =>
      obtain ⟨strings, heq, hsound, hextends⟩ :=
        ih (m := (m.intern (Utf8.encode name)).2) (StringPool.intern_sound hs)
      exact ⟨strings, heq, hsound, (m.strings.extends_intern _).trans hextends⟩

theorem Reachable.knowing (hm : m.Reachable) (names : List String) : (m.knowing names).Reachable := by
  induction names generalizing m with
  | nil => exact hm
  | cons name rest ih => exact ih (hm.runs (leads_intern hm.framed))

theorem sound_knowing (hs : m.strings.Sound) : (m.knowing names).strings.Sound := by
  obtain ⟨strings, heq, hsound, -⟩ := knowing_eq hs names
  rw [heq]
  exact hsound

theorem Knows.extends (h : m.Knows name) (hstrings : m.strings.Extends m'.strings) : m'.Knows name := by
  obtain ⟨id, hid⟩ := h
  exact ⟨id, hstrings id _ hid⟩

theorem Knows.knowing (h : m.Knows name) (hs : m.strings.Sound) (names : List String) :
    (m.knowing names).Knows name := by
  obtain ⟨strings, heq, -, hextends⟩ := knowing_eq hs names
  obtain ⟨id, hid⟩ := h
  rw [heq]
  exact ⟨id, hextends id _ hid⟩

theorem knows_intern : (m.intern (Utf8.encode name)).2.Knows name := ⟨_, StringPool.intern_found⟩

theorem knows_knowing (hs : m.strings.Sound) (hin : name ∈ names) : (m.knowing names).Knows name := by
  induction names generalizing m with
  | nil => cases hin
  | cons n rest ih =>
      have hsound : (m.intern (Utf8.encode n)).2.strings.Sound := StringPool.intern_sound hs
      rcases List.mem_cons.mp hin with rfl | hin
      · exact knows_intern.knowing hsound rest
      · exact ih hsound hin

theorem intern_knows (hs : m.strings.Sound) (h : m.Knows name) : (m.intern (Utf8.encode name)).2 = m := by
  obtain ⟨id, hid⟩ := h
  rw [intern_known hs hid]

/-! ## Entries under names -/

theorem field_eq (hs : m.strings.Sound) (hid : m.strings.strings[id]? = some (Utf8.encode name)) (table : Nat) :
    m.field table name = (m.heap.table table).get (.string id) := by
  rw [field, (StringPool.find?_eq_some hs).mpr hid]

/-- Learning more names does not concern the entries under those that are known. -/
theorem Knows.field_knowing (h : m.Knows name) (hs : m.strings.Sound) (names : List String) (table : Nat) :
    (m.knowing names).field table name = m.field table name := by
  obtain ⟨strings, heq, hsound, hextends⟩ := knowing_eq hs names
  obtain ⟨id, hid⟩ := h
  rw [heq, field_eq hs hid, field_eq (m := { m with strings }) hsound (hextends id _ hid)]

theorem field_intern (hs : m.strings.Sound) (name : String) (table : Nat) :
    (m.intern (Utf8.encode name)).2.field table name =
      (m.heap.table table).get (.string (m.intern (Utf8.encode name)).1) :=
  field_eq (StringPool.intern_sound hs) StringPool.intern_found table

/-! ## Walks -/

@[simp] theorem walk_nil (m : Machine) (path : List String) : m.walk .nil path = .nil := by
  cases path <;> rfl

theorem walk_of_ne (hv : ∀ table, v ≠ .table table) (name : String) (rest : List String) :
    m.walk v (name :: rest) = .nil := by
  unfold walk
  split
  · rename_i heq
    cases heq
  · exact absurd rfl (hv _)
  · rfl

theorem walk_congr (h : ∀ table, ∀ name ∈ path, m'.field table name = m.field table name) (v : Value) :
    m'.walk v path = m.walk v path := by
  induction path generalizing v with
  | nil => rfl
  | cons name rest ih =>
      by_cases hv : ∃ first, v = .table first
      · obtain ⟨first, rfl⟩ := hv
        rw [walk, walk, h first name List.mem_cons_self]
        exact ih (fun table name hin => h table name (List.mem_cons_of_mem _ hin)) _
      · have hne : ∀ table, v ≠ .table table := fun table h => hv ⟨table, h⟩
        rw [walk_of_ne hne, walk_of_ne hne]

theorem walk_push (m : Machine) (v w : Value) (path : List String) : (m.push w).walk v path = m.walk v path := by
  have hfield : ∀ table name, (m.push w).field table name = m.field table name := fun _ _ => rfl
  exact walk_congr (fun table name _ => hfield table name) v

theorem knowing_push (m : Machine) (w : Value) (names : List String) :
    (m.push w).knowing names = (m.knowing names).push w := by
  induction names generalizing m with
  | nil => rfl
  | cons name rest ih => exact ih (m := (m.intern (Utf8.encode name)).2)

theorem knowing_concat (m : Machine) (names : List String) (name : String) :
    m.knowing (names ++ [name]) = ((m.knowing names).intern (Utf8.encode name)).2 := by
  rw [knowing, List.foldl_append]
  rfl

/-- A walk along known names is the same once more names are known. -/
theorem walk_knowing (hs : m.strings.Sound) (hknown : ∀ name ∈ path, m.Knows name) (names : List String)
    (v : Value) : (m.knowing names).walk v path = m.walk v path :=
  walk_congr (fun table name hin => (hknown name hin).field_knowing hs names table) v

/-- A walk that leads to a table starts at one. -/
theorem walk_cons (h : m.walk v (name :: rest) = .table table) : ∃ first, v = .table first ∧
    m.walk (m.field first name) rest = .table table := by
  by_cases hv : ∃ first, v = .table first
  · obtain ⟨first, rfl⟩ := hv
    exact ⟨first, rfl, h⟩
  · rw [walk_of_ne fun first hfirst => hv ⟨first, hfirst⟩] at h
    cases h

end Machine

namespace Act

open Machine

variable {host : Host} {m : Machine} {name segment : String} {path rest : List String} {v w : Value} {table : Nat}

/-! ## Reading along names -/

theorem followPath_append (path rest : List String) :
    followPath (path ++ rest) = (do followPath path; followPath rest : Act ScriptError Unit) := by
  induction path with
  | nil => rfl
  | cons segment path ih => simp only [List.cons_append, followPath, ih, bind_assoc]

theorem followPath_table (hm : m.Framed) (hs : m.strings.Sound)
    (hv : ((m.intern (Utf8.encode segment)).2.field table segment).isNil = false ∨
      (m.metafield (.table table) .index).isNil = true) :
    followPath (segment :: rest) host (m.push (.table table)) = followPath rest host
      ((m.intern (Utf8.encode segment)).2.push ((m.intern (Utf8.encode segment)).2.field table segment)) := by
  have hremove := remove_push (m := (m.intern (Utf8.encode segment)).2) (v := .table table)
    (w := (m.intern (Utf8.encode segment)).2.field table segment) hm
  rw [followPath, bind_ok (getField_table hm (field_intern hs segment table).symm hv),
    bind_ok (run_lift.trans hremove)]

/-- A value that is no table and has no field to go on by cannot be indexed. -/
theorem getField_refused (hm : m.Framed) (hv : ∀ table, v ≠ .table table)
    (hplain : (m.metafield v .index).isNil = true) :
    ∃ e stack strings, getField .top name host (m.push v) = .error e { m with stack, strings } := by
  let known := (m.intern (Utf8.encode name)).2
  let key : Value := .string (m.intern (Utf8.encode name)).1
  obtain ⟨n, hn, hvalue⟩ := absolute_top (v := v) hm
  have hframed : (known.push v).Framed := framed_push (m := known) hm
  have hat : ((known.push v).push key).value (.fromBottom n) = v := hvalue key
  have hstops : ((known.push v).push key).Stops .index key v (.refused v) := .refused hplain hv
  have hchain : readChain v key maxChain host ((known.push v).push key) =
      .error (.ofFault (.notIndexable (((known.push v).push key).describe v))) ((known.push v).push key) :=
    readChain_refused hstops 99
  have hend : getTable (.fromBottom n) host ((known.push v).push key) = .error _ ((known.push v).push key) :=
    getTable_error rfl hframed (by rw [hat]; exact hchain)
  rw [getField, run_bind, run_get]
  dsimp only
  rw [hn, run_bind, run_modify]
  exact ⟨_, (m.stack.push v).push key, known.strings, hend⟩

/-- A walk that leads to a table is what reading does, whatever metatables there are. -/
theorem followPath_walk (host : Host) (path : List String) (hm : m.Framed) (hs : m.strings.Sound)
    (hwalk : (m.knowing path).walk v path = .table table) :
    followPath path host (m.push v) = .ok () ((m.knowing path).push (.table table)) := by
  induction path generalizing m v with
  | nil =>
      obtain rfl : v = .table table := hwalk
      rfl
  | cons segment rest ih =>
      have hsound : (m.intern (Utf8.encode segment)).2.strings.Sound := StringPool.intern_sound hs
      obtain ⟨first, rfl, hrest⟩ := walk_cons hwalk
      have hfield := knows_intern.field_knowing (m := (m.intern (Utf8.encode segment)).2) hsound rest first
      rw [show m.knowing (segment :: rest) = (m.intern (Utf8.encode segment)).2.knowing rest from rfl,
        hfield] at hrest
      have hfound : ((m.intern (Utf8.encode segment)).2.field first segment).isNil = false := by
        refine Bool.eq_false_iff.mpr fun hnil => ?_
        rw [Value.eq_nil hnil, walk_nil] at hrest
        cases hrest
      rw [followPath_table hm hs (.inl hfound)]
      exact ih hm hsound hrest

/-- A walk that does not lead to a table ends reading with an error, or with what it leads to. -/
theorem followPath_astray (host : Host) (path : List String) (hm : m.Framed) (hs : m.strings.Sound)
    (hplain : ∀ before, before <+: path → (m.knowing path).Plain ((m.knowing path).walk v before))
    (hwalk : ∀ table, (m.knowing path).walk v path ≠ .table table) :
    (∃ e stack strings, followPath path host (m.push v) = .error e { m with stack, strings }) ∨
    followPath path host (m.push v) = .ok () ((m.knowing path).push ((m.knowing path).walk v path)) := by
  induction path generalizing m v with
  | nil => exact .inr rfl
  | cons segment rest ih =>
      let known := (m.intern (Utf8.encode segment)).2
      have hsound : known.strings.Sound := StringPool.intern_sound hs
      obtain ⟨strings, hknowing, -, -⟩ := knowing_eq hsound rest
      have hstart : known.Plain v := by
        have hv := hplain [] (List.nil_prefix)
        rw [show m.knowing (segment :: rest) = known.knowing rest from rfl, hknowing] at hv
        exact ⟨hv.index, hv.newindex⟩
      by_cases hv : ∃ first, v = .table first
      · obtain ⟨first, rfl⟩ := hv
        have hfield : (known.knowing rest).field first segment = known.field first segment :=
          knows_intern.field_knowing hsound rest first
        have hstep : ∀ before, (m.knowing (segment :: rest)).walk (.table first) (segment :: before) =
            (known.knowing rest).walk (known.field first segment) before := fun before => by
          rw [← hfield]
          rfl
        rw [followPath_table hm hs (.inr hstart.index)]
        have hrest := ih (m := known) (v := known.field first segment) hm hsound
          (fun before hbefore => hstep before ▸ hplain (segment :: before) (List.cons_prefix_cons.mpr ⟨rfl, hbefore⟩))
          (fun table => hstep rest ▸ hwalk table)
        rw [← hstep rest] at hrest
        exact hrest
      · have hrefused : ∃ e stack strings, getField .top segment host (m.push v) = .error e { m with stack, strings } :=
          getField_refused hm (fun first hfirst => hv ⟨first, hfirst⟩) hstart.index
        obtain ⟨e, stack, strings, hrun⟩ := hrefused
        refine .inl ⟨e, stack, strings, ?_⟩
        rw [followPath, run_bind, hrun]

/-! ## Assigning by a name -/

/-- An index from the top that is made to last names the value below the top one. -/
theorem absolute_second (hm : m.Framed) : ∃ n, ((m.push w).push v).absolute (.fromTop 2) = .fromBottom n ∧
    ∀ strings x y, (((({ m with strings } : Machine).push w).push x).push y).value (.fromBottom n) = w := by
  have hb : m.base ≤ m.stack.toList.length := by
    rw [Array.length_toList]
    exact hm
  have hl : Laid m.base (m.stack.toList ++ [w] ++ [v]) ((m.push w).push v) := Laid.push (Laid.push ⟨rfl, rfl⟩)
  have htop : ((m.push w).push v).top = m.stack.toList.length - m.base + 2 := by
    rw [hl.top, List.length_append, List.length_append, List.length_singleton, List.length_singleton]
    omega
  refine ⟨m.stack.toList.length - m.base + 1, ?_, fun strings x y => ?_⟩
  · rw [absolute, htop, if_pos (by omega)]
    congr 1
  · have hl' : Laid m.base (m.stack.toList ++ w :: [x, y]) (((({ m with strings } : Machine).push w).push x).push y) := by
      simpa using Laid.push (v := y) (Laid.push (v := x) (Laid.push (v := w)
        (⟨rfl, rfl⟩ : Laid m.base m.stack.toList { m with strings })))
    exact hl'.value_fromBottom hb (by omega)

variable {i : StackIndex} {last : String} {leading : List String}

/-- A table without a field to go on by gets the entry itself. -/
theorem setField_table (hm : m.Framed)
    (hi : ∀ x, (((m.intern (Utf8.encode name)).2.push x).push v).value ((m.push v).absolute i) = .table table)
    (hplain : (m.metafield (.table table) .newindex).isNil = true) :
    setField i name host (m.push v) =
      .ok () ((m.intern (Utf8.encode name)).2.setEntry table (.string (m.intern (Utf8.encode name)).1) v) := by
  let known := (m.intern (Utf8.encode name)).2
  let id := (m.intern (Utf8.encode name)).1
  have hstops : ((known.push (.string id)).push v).Stops .newindex (.string id) (.table table) (.table table) :=
    .bare hplain
  have hchain : writeChain (.table table) (.string id) v maxChain host ((known.push (.string id)).push v) =
      .ok () (((known.push (.string id)).push v).setEntry table (.string id) v) := writeChain_table hstops 99
  have hpop : (((known.push (.string id)).push v).setEntry table (.string id) v).pop 2 =
      known.setEntry table (.string id) v :=
    pop_prefix [.string id, v] (by simp [setEntry, push]) hm
  have hend : setTable ((m.push v).absolute i) host ((known.push (.string id)).push v) =
      .ok () ((((known.push (.string id)).push v).setEntry table (.string id) v).pop 2) :=
    setTable_ok rfl hm (by rw [hi]; exact hchain)
  rw [hpop] at hend
  rw [setField_eq hm]
  exact hend

/-- Nothing is assigned to in a value that is no table and has no field to go on by. -/
theorem setField_refused (hm : m.Framed)
    (hi : ∀ x, (((m.intern (Utf8.encode name)).2.push x).push v).value ((m.push v).absolute i) = w)
    (hw : ∀ table, w ≠ .table table) (hplain : (m.metafield w .newindex).isNil = true) :
    ∃ e stack strings, setField i name host (m.push v) = .error e { m with stack, strings } := by
  let known := (m.intern (Utf8.encode name)).2
  let id := (m.intern (Utf8.encode name)).1
  have hstops : ((known.push (.string id)).push v).Stops .newindex (.string id) w (.refused w) :=
    .refused hplain hw
  have hchain : writeChain w (.string id) v maxChain host ((known.push (.string id)).push v) =
      .error (.ofFault (.notIndexable (((known.push (.string id)).push v).describe w)))
        ((known.push (.string id)).push v) := writeChain_refused hstops 99
  have hend : setTable ((m.push v).absolute i) host ((known.push (.string id)).push v) =
      .error _ ((known.push (.string id)).push v) := setTable_error rfl hm (by rw [hi]; exact hchain)
  rw [setField_eq hm]
  exact ⟨_, (m.stack.push (.string id)).push v, known.strings, hend⟩

/-- A global whose leading segments lead to a table is an entry of that table. -/
theorem setGlobal_walk (hm : m.Framed) (hs : m.strings.Sound) (hname : Path.segments name = leading ++ [last])
    (hwalk : (m.knowing leading).walk (.table m.globals) leading = .table table)
    (hplain : (m.metafield (.table table) .newindex).isNil = true) :
    setGlobal name host (m.push v) = .ok () (((m.knowing leading).intern (Utf8.encode last)).2.setEntry table
      (.string ((m.knowing leading).intern (Utf8.encode last)).1) v) := by
  rcases Path.splitLast_cases name with ⟨-, hsplit, hsegments⟩ | ⟨-, path, field, hsplit, hsegments⟩ <;>
    rw [setGlobal, hsplit] <;> dsimp only
  · obtain ⟨rfl, heq⟩ := List.append_inj' (hname.symm.trans (hsegments.trans (List.nil_append _).symm)) rfl
    obtain rfl : last = name := by simpa using heq
    obtain rfl : m.globals = table := by simpa [walk] using hwalk
    exact setField_table hm (fun _ => rfl) hplain
  · obtain ⟨rfl, heq⟩ := List.append_inj' (hname.symm.trans hsegments) rfl
    obtain rfl : last = field := by simpa using heq
    obtain ⟨strings, hknowing, -, -⟩ := knowing_eq hs (Path.segments path)
    rw [hknowing] at hwalk ⊢
    let found : Machine := { m with strings }
    have hget : getGlobal path host (m.push v) = .ok (((found.push v).push (.table table)).kindAt .top)
        ((found.push v).push (.table table)) := by
      refine getGlobal_found ?_
      rw [followPath_walk (m := m.push v) host _ (framed_push hm) hs (by rw [knowing_push, walk_push, hknowing]; exact hwalk),
        knowing_push, hknowing]
    have hinsert : Op.insert (.fromTop 2) ((found.push v).push (.table table)) =
        .ok () ((found.push (.table table)).push v) := insert_push hm
    obtain ⟨n, hn, hsecond⟩ := absolute_second (m := found) (w := .table table) (v := v) hm
    have hset : setField (.fromTop 2) last host ((found.push (.table table)).push v) = .ok ()
        (((found.push (.table table)).intern (Utf8.encode last)).2.setEntry table
          (.string ((found.push (.table table)).intern (Utf8.encode last)).1) v) :=
      setField_table (framed_push (m := found) hm)
        (fun x => by rw [hn]; exact hsecond _ x v) hplain
    have hassign : (do
        let _ ← getGlobal path
        Op.insert (.fromTop 2)
        setField (.fromTop 2) last : Act ScriptError Unit) host (m.push v) = .ok ()
        (((found.push (.table table)).intern (Utf8.encode last)).2.setEntry table
          (.string ((found.push (.table table)).intern (Utf8.encode last)).1) v) := by
      rw [bind_ok hget, bind_ok (run_lift.trans hinsert), hset]
    rw [run_bind, run_get]
    dsimp only
    rw [run_bind, run_attempt, hassign]
    refine congrArg (EStateM.Result.ok ()) ?_
    exact pop_prefix [.table table] (by simp [setEntry, found, push, intern]) hm

/-- Where a namespace is no table, its fields cannot be assigned. -/
theorem assign_refused (hm : m.Framed) {kind : ValueKind} {path : String} {strings : StringPool}
    (hget : getGlobal path host (m.push v) = .ok kind (({ m with strings }.push v).push w))
    (hw : ∀ table, w ≠ .table table) (hplain : (m.metafield w .newindex).isNil = true) :
    ∃ e stack strings, (do
      let _ ← getGlobal path
      Op.insert (.fromTop 2)
      setField (.fromTop 2) last : Act ScriptError Unit) host (m.push v) = .error e { m with stack, strings } := by
  have hinsert : Op.insert (.fromTop 2) (({ m with strings }.push v).push w) =
      .ok () (({ m with strings }.push w).push v) := insert_push hm
  obtain ⟨n, hn, hsecond⟩ := absolute_second (m := { m with strings }) (w := w) (v := v) hm
  have hset : ∃ e stack known, setField (.fromTop 2) last host (({ m with strings }.push w).push v) =
      .error e { m with stack, strings := known } :=
    setField_refused (framed_push (m := { m with strings }) hm) (fun x => by rw [hn]; exact hsecond _ x v) hw hplain
  obtain ⟨e, stack, known, hset⟩ := hset
  refine ⟨e, stack, known, ?_⟩
  rw [bind_ok hget, bind_ok (run_lift.trans hinsert), hset]

/-- A global whose leading segments do not lead to a table cannot be assigned. -/
theorem setGlobal_astray (hm : m.Framed) (hs : m.strings.Sound) (hname : Path.segments name = leading ++ [last])
    (hplain : ∀ before, before <+: leading →
      (m.knowing leading).Plain ((m.knowing leading).walk (.table m.globals) before))
    (hwalk : ∀ table, (m.knowing leading).walk (.table m.globals) leading ≠ .table table) :
    ∃ e stack strings, setGlobal name host (m.push v) = .error e { m with stack, strings } := by
  rcases Path.splitLast_cases name with ⟨-, hsplit, hsegments⟩ | ⟨-, path, field, hsplit, hsegments⟩ <;>
    rw [setGlobal, hsplit] <;> dsimp only
  · obtain ⟨rfl, -⟩ := List.append_inj' (hname.symm.trans (hsegments.trans (List.nil_append _).symm)) rfl
    exact absurd rfl (hwalk m.globals)
  · obtain ⟨rfl, heq⟩ := List.append_inj' (hname.symm.trans hsegments) rfl
    obtain rfl : last = field := by simpa using heq
    have hfollow := followPath_astray (m := m.push v) (v := .table m.globals) host (Path.segments path)
      (framed_push hm) hs
    simp only [knowing_push, walk_push] at hfollow
    have hassign : ∃ e stack strings, (do
        let _ ← getGlobal path
        Op.insert (.fromTop 2)
        setField (.fromTop 2) last : Act ScriptError Unit) host (m.push v) = .error e { m with stack, strings } := by
      rcases hfollow (fun before hbefore => ⟨(hplain before hbefore).index, (hplain before hbefore).newindex⟩) hwalk
        with ⟨e, stack, strings, hfailed⟩ | hfound
      · obtain ⟨stack', htop⟩ := ({ m with stack, strings } : Machine).setTop_eq (m.push v).top
        refine ⟨e, stack', strings, ?_⟩
        rw [run_bind, getGlobal_failed (m := m.push v) hfailed]
        exact congrArg (EStateM.Result.error e) htop
      · have hlast := (hplain _ List.prefix_rfl).newindex
        obtain ⟨known, hknowing, -, -⟩ := knowing_eq hs (Path.segments path)
        have hget := getGlobal_found (m := m.push v) hfound
        rw [hknowing] at hget hwalk hlast
        exact assign_refused hm hget hwalk hlast
    obtain ⟨e, stack, strings, hassign⟩ := hassign
    obtain ⟨stack', htop⟩ := ({ m with stack, strings } : Machine).setTop_eq ((m.push v).top - 1)
    refine ⟨e, stack', strings, ?_⟩
    rw [run_bind, run_get]
    dsimp only
    rw [run_bind, run_attempt, hassign]
    dsimp only
    rw [run_bind, run_modify, htop]
    rfl

end Act

namespace Machine

open Act

variable {m : Machine} {host : Host} {name last : String} {leading : List String} {v : Value} {table slot : Nat}

/-! ## After an assignment -/

/-- What names lead to is there. -/
theorem walk_present (hh : m.heap.Intact) (hv : m.heap.Present v) (path : List String) :
    m.heap.Present (m.walk v path) := by
  induction path generalizing v with
  | nil => exact hv
  | cons name rest ih =>
      by_cases htable : ∃ first, v = .table first
      · obtain ⟨first, rfl⟩ := htable
        refine ih ?_
        unfold field
        split
        · exact hh.get _ _
        · exact Heap.present_nil
      · rw [walk_of_ne fun first h => htable ⟨first, h⟩]
        exact Heap.present_nil

theorem knowing_known (hs : m.strings.Sound) (names : List String) (hknown : ∀ name ∈ names, m.Knows name) :
    m.knowing names = m := by
  induction names with
  | nil => rfl
  | cons name rest ih =>
      have hrest := ih fun n hn => hknown n (List.mem_cons_of_mem _ hn)
      rw [← hrest, knowing, List.foldl_cons, hrest, intern_knows hs (hknown name List.mem_cons_self)]
      exact hrest

theorem metatable?_setEntry (k : Key) (x w : Value) : (m.setEntry slot k x).metatable? w = m.metatable? w := by
  unfold metatable?
  split
  · rename_i t
    by_cases ht : t = slot
    · subst ht
      simp only [setEntry, Heap.table, Heap.modifyTable, Arena.get?_modify, if_true]
      cases m.heap.tables.get? t with
      | none => rfl
      | some contents => exact Table.metatable_set
    · rw [table_setEntry_other ht]
  · rfl
  · rfl

/-- Clearing an entry brings in no metafield. -/
theorem metafield_setEntry_nil (hm : m.Reachable) (hslot : m.heap.contents? ⟨.table, slot⟩ ≠ none) {k : Key}
    {f : Metafield} {w : Value} (hnil : (m.metafield w f).isNil = true) :
    ((m.setEntry slot k .nil).metafield w f).isNil = true := by
  unfold metafield metaEntry at hnil ⊢
  rw [metatable?_setEntry]
  cases hmt : m.metatable? w with
  | none => rfl
  | some mt =>
      rw [hmt] at hnil
      dsimp only at hnil ⊢
      rw [get_setEntry hm hslot]
      split
      · rfl
      · exact hnil

/-- A walk that does not read the entry that changed leads where it led before. -/
theorem walk_changed {m' : Machine} (path : List String)
    (hfield : ∀ t, ∀ n ∈ path, m'.field t n = if t = table ∧ n = last then v else m.field t n) (w : Value)
    (hread : ∀ before segment, before ++ [segment] <+: path → m.walk w before = .table table → segment ≠ last) :
    m'.walk w path = m.walk w path := by
  induction path generalizing w with
  | nil => rfl
  | cons name rest ih =>
      by_cases hw : ∃ first, w = .table first
      · obtain ⟨first, rfl⟩ := hw
        have hsame : m'.field first name = m.field first name := by
          rw [hfield first name List.mem_cons_self, if_neg]
          rintro ⟨rfl, heq⟩
          exact hread [] name (by simp) rfl heq
        rw [walk, walk, hsame]
        refine ih (fun t n hn => hfield t n (List.mem_cons_of_mem _ hn)) _ fun before segment hbefore hto => ?_
        exact hread (name :: before) segment (by simpa using hbefore) hto
      · have hne : ∀ first, w ≠ .table first := fun first h => hw ⟨first, h⟩
        rw [walk_of_ne hne, walk_of_ne hne]

theorem field_setEntry (hm : m.Reachable) (hslot : m.heap.contents? ⟨.table, table⟩ ≠ none) {id : Nat}
    (hid : m.strings.strings[id]? = some (Utf8.encode last)) {n : String} (hn : m.Knows n) (t : Nat) :
    (m.setEntry table (.string id) v).field t n = if t = table ∧ n = last then v else m.field t n := by
  obtain ⟨i, hi⟩ := hn
  have hs := hm.named.sound
  have hsame : (Key.string i = .string id) ↔ n = last := by
    refine ⟨fun h => ?_, fun h => ?_⟩
    · obtain rfl : i = id := by simpa using h
      exact Utf8.encode_injective (Option.some.inj (hi.symm.trans hid))
    · subst h
      rw [hs.distinct hi hid]
  rw [field_eq (m := m.setEntry table (.string id) v) hs hi, field_eq hs hi, get_setEntry hm hslot]
  simp only [hsame]

/-- What was assigned is read back, unless the entry lies on the way to itself. -/
theorem getGlobal_assigned (hm : m.Reachable) (hslot : m.heap.contents? ⟨.table, table⟩ ≠ none) {id : Nat}
    (hname : Path.segments name = leading ++ [last]) (hknown : ∀ n ∈ Path.segments name, m.Knows n)
    (hid : m.strings.strings[id]? = some (Utf8.encode last))
    (hwalk : m.walk (.table m.globals) leading = .table table)
    (hplain : (m.metafield (.table table) .index).isNil = true)
    (hread : ∀ before segment, before ++ [segment] <+: leading →
      m.walk (.table m.globals) before = .table table → segment ≠ last) :
    getGlobal name host (m.setEntry table (.string id) v) = .ok v.kind ((m.setEntry table (.string id) v).push v) := by
  let m' := m.setEntry table (.string id) v
  have hs : m'.strings.Sound := hm.named.sound
  rw [hname] at hknown
  have hknows : ∀ n ∈ leading ++ [last], m'.Knows n := hknown
  have hsame : ∀ names ⊆ leading ++ [last], m'.knowing names = m' := fun names hnames =>
    knowing_known hs names fun n hn => hknows n (hnames hn)
  have hto : m'.walk (.table m'.globals) leading = .table table := by
    have hfield : ∀ t, ∀ n ∈ leading, m'.field t n = if t = table ∧ n = last then v else m.field t n :=
      fun t n hn => field_setEntry hm hslot hid (hknown n (List.mem_append_left _ hn)) t
    exact (walk_changed leading hfield _ hread).trans hwalk
  have hleading : followPath leading host (m'.push (.table m'.globals)) = .ok () (m'.push (.table table)) := by
    have hfollow := followPath_walk host leading (hm.setEntry.framed) hs
      (by rw [hsame leading (List.subset_append_left _ _)]; exact hto)
    rw [hsame leading (List.subset_append_left _ _)] at hfollow
    exact hfollow
  have hvalue : m'.field table last = v := by
    rw [field_setEntry hm hslot hid (hknown last (by simp)), if_pos ⟨rfl, rfl⟩]
  have hintern : (m'.intern (Utf8.encode last)).2 = m' := intern_knows hs (hknows last (by simp))
  have hlast : followPath [last] host (m'.push (.table table)) = .ok () (m'.push v) := by
    rw [followPath_table hm.setEntry.framed hs ?_, hintern, hvalue]
    · rfl
    · rw [hintern, hvalue]
      cases hnil : v.isNil with
      | false => exact .inl rfl
      | true =>
          obtain rfl := Value.eq_nil hnil
          exact .inr (metafield_setEntry_nil hm hslot hplain)
  have hfollow : followPath (Path.segments name) host (m'.push (.table m'.globals)) = .ok () (m'.push v) := by
    rw [hname, followPath_append, bind_ok hleading, hlast]
  rw [getGlobal_found hfollow, kindAt_push hm.setEntry.framed]

/-- A dotted name has one place, which assigning and reading find alike. If its leading segments lead to a table,
    through tables and to a value that have no fields to go on by, assigning changes the entry of the last
    segment in that table, and nothing else, and takes the value off the stack; reading pushes that value then,
    unless the entry is read before on the way. If they do not lead to a table, assigning fails, and nothing has
    changed but the stack and that more names are known. -/
theorem Reachable.global_assigned (hm : m.Reachable) (hi : m.Intact) (host : Host) (v : Value)
    (hname : Path.segments name = leading ++ [last])
    (hplain : ∀ before, before <+: leading → (m.knowing (Path.segments name)).Plain
      ((m.knowing (Path.segments name)).walk (.table m.globals) before)) :
    (∀ table, (m.knowing (Path.segments name)).walk (.table m.globals) leading = .table table →
      ∃ id m', (m.knowing (Path.segments name)).strings.strings[id]? = some (Utf8.encode last) ∧
        m' = (m.knowing (Path.segments name)).setEntry table (.string id) v ∧
        setGlobal name host (m.push v) = .ok () m' ∧ m'.stack = m.stack ∧
        (∀ slot key, (m'.heap.table slot).get key =
          if slot = table ∧ key = .string id then v else (m.heap.table slot).get key) ∧
        ((∀ before segment, before ++ [segment] <+: leading →
            (m.knowing (Path.segments name)).walk (.table m.globals) before = .table table → segment ≠ last) →
          getGlobal name host m' = .ok v.kind (m'.push v))) ∧
    ((∀ table, (m.knowing (Path.segments name)).walk (.table m.globals) leading ≠ .table table) →
      ∃ e stack strings, setGlobal name host (m.push v) = .error e { m with stack, strings }) := by
  have hs := hm.named.sound
  have hlearned : m.knowing (Path.segments name) = ((m.knowing leading).intern (Utf8.encode last)).2 := by
    rw [hname, knowing_concat]
  have hknown : ∀ n ∈ Path.segments name, (m.knowing (Path.segments name)).Knows n := fun n hn =>
    knows_knowing hs hn
  -- The last name is not read on the way.
  have hway : ∀ before, before <+: leading → (m.knowing (Path.segments name)).walk (.table m.globals) before =
      (m.knowing leading).walk (.table m.globals) before := fun before hbefore => by
    have hbefore' : ∀ n ∈ before, (m.knowing leading).Knows n := fun n hn =>
      knows_knowing hs (hbefore.subset hn)
    rw [hlearned]
    exact walk_knowing (sound_knowing hs) hbefore' [last] _
  obtain ⟨strings, heq, -, -⟩ := knowing_eq hs (Path.segments name)
  obtain ⟨strings', heq', -, -⟩ := knowing_eq hs leading
  refine ⟨fun table hwalk => ?_, fun hwalk => ?_⟩
  · have hend := hplain leading List.prefix_rfl
    have hslot : (m.knowing (Path.segments name)).heap.contents? ⟨.table, table⟩ ≠ none := by
      have hthere := walk_present (m := m.knowing (Path.segments name)) (by rw [heq]; exact hi.heap)
        (by rw [heq]; exact hi.globals) leading
      rw [hwalk] at hthere
      exact Heap.present_object.mp hthere
    have hid : ((m.knowing leading).intern (Utf8.encode last)).2.strings.strings[((m.knowing leading).intern
        (Utf8.encode last)).1]? = some (Utf8.encode last) := StringPool.intern_found
    rw [hwalk] at hend
    refine ⟨_, _, by rw [hlearned]; exact hid, rfl, ?_, ?_, fun slot key => ?_, fun hread => ?_⟩
    · rw [hlearned]
      refine setGlobal_walk hm.framed hs hname ((hway leading List.prefix_rfl).symm.trans hwalk) ?_
      rw [heq] at hend
      exact hend.newindex
    · rw [heq]
      rfl
    · rw [get_setEntry (hm.knowing _) hslot, heq]
    · have hglobals : (m.knowing (Path.segments name)).globals = m.globals := by rw [heq]
      exact getGlobal_assigned (hm.knowing _) hslot hname hknown (by rw [hlearned]; exact hid)
        (by rw [hglobals]; exact hwalk) hend.index (by rw [hglobals]; exact hread)
  · refine setGlobal_astray hm.framed hs hname (fun before hbefore => ?_) fun table => ?_
    · have hat := hplain before hbefore
      rw [hway before hbefore, heq] at hat
      rw [heq']
      rw [heq'] at hat
      exact ⟨hat.index, hat.newindex⟩
    · rw [← hway leading List.prefix_rfl]
      exact hwalk table

/-- The globals have an empty table under a name. -/
def furnished : Machine := littered.setEntry 1 (.string Metafield.call.id) (.table 2)

theorem furnished_sound : furnished.Reachable ∧ furnished.Intact := by
  have hlittered : littered.Intact :=
    (intact_create {}).change .newTable ((intact_create {}).heap.gains_newTable.intact (intact_create {}).heap)
  refine ⟨littered_reachable.setEntry, hlittered.change (.entry ..) (hlittered.heap.setEntry ?_ ?_)⟩
  · intro w hw
    cases hw
  · exact Heap.present_object.mpr (Option.some_ne_none _)

theorem furnished_walk (names : List String) : (furnished.knowing names).walk (.table 1) ["__call"] = .table 2 := by
  have hs := furnished_sound.1.named.sound
  have hknown : ∀ n ∈ ["__call"], furnished.Knows n := fun n hn => by
    rw [List.mem_singleton.mp hn]
    exact ⟨_, furnished_sound.1.named.names .call⟩
  rw [walk_knowing hs hknown]
  change furnished.field 1 Metafield.call.text = .table 2
  rw [field_eq hs (furnished_sound.1.named.names .call)]
  decide

theorem furnished_global_assigned : ∃ id m', setGlobal "__call.x" (Programs.host [] 1) (furnished.push (.int 7)) = .ok () m' ∧
    m'.stack = #[] ∧ (m'.heap.table 2).get (.string id) = .int 7 ∧
    getGlobal "__call.x" (Programs.host [] 1) m' = .ok .number (m'.push (.int 7)) := by
  obtain ⟨hm, hi⟩ := furnished_sound
  have hname : Path.segments "__call.x" = ["__call"] ++ ["x"] := by decide +kernel
  have hplain : ∀ before, before <+: ["__call"] → (furnished.knowing (Path.segments "__call.x")).Plain
      ((furnished.knowing (Path.segments "__call.x")).walk (.table furnished.globals) before) := fun before hbefore => by
    obtain ⟨strings, heq, -, -⟩ := knowing_eq hm.named.sound (Path.segments "__call.x")
    rcases List.prefix_cons_iff.mp hbefore with rfl | ⟨rest, rfl, hrest⟩
    · rw [heq]
      exact ⟨rfl, rfl⟩
    · obtain rfl : rest = [] := List.prefix_nil.mp hrest
      rw [show furnished.globals = 1 from rfl, furnished_walk, heq]
      exact ⟨rfl, rfl⟩
  obtain ⟨id, m', -, -, hset, hstack, hget, hback⟩ :=
    (hm.global_assigned hi (Programs.host [] 1) (.int 7) hname hplain).1 2 (furnished_walk _)
  refine ⟨id, m', hset, hstack, by rw [hget, if_pos ⟨rfl, rfl⟩], hback fun before segment hbefore hto => ?_⟩
  have hempty : before = [] := by
    have hlength := hbefore.length_le
    simpa using hlength
  subst hempty
  cases hto

end Machine

end ScriptHost
