import ScriptHost.Proofs.CachedFunction
import ScriptHost.Proofs.Release

/-! # Functions of the library

The functions by which the host reaches classes are found in the cache or among the globals. Finding one, and
calling a function that leaves the heap alone, passes over a machine: it concerns the stack and the frames,
and brings in at most new strings and cached values.
-/

namespace ScriptHost

open Machine

namespace Class

/-- The functions by which the host reaches classes. -/
def codes : List NativeCode := functions.map (·.2)

end Class

namespace Machine

variable {m m' m'' : Machine} {code : NativeCode} {name : String} {v w : Value} {table : Nat}

/-- A table has an entry under a name. -/
def Entry (m : Machine) (table : Nat) (name : String) (v : Value) : Prop :=
  ∃ id : Nat, m.strings.strings[id]? = some (Utf8.encode name) ∧ (m.heap.table table).get (.string id) = v

/-- A function of the library is cached, or is to be found in the global table `class`. -/
def Found (m : Machine) (code : NativeCode) : Prop :=
  (∃ v, m.cache.get? (.token (Class.token code)) = some v ∧ m.Implements v code) ∨
  m.cache.get? (.token (Class.token code)) = none ∧ ∃ classes field v,
    Path.segments (Class.path code) = ["class", field] ∧ m.Entry m.globals "class" (.table classes) ∧
      m.Entry classes field v ∧ m.Implements v code

/-- All functions of the library are found. -/
structure Ready (m : Machine) : Prop where
  strings : m.strings.Sound
  found : ∀ code ∈ Class.codes, m.Found code

/-- What was done to a machine concerns the stack and the frames, and brought in at most new strings and cached
    values. -/
structure Passes (m m' : Machine) : Prop where
  heap : m'.heap = m.heap
  destroyed : m'.destroyed = m.destroyed
  registry : m'.registry = m.registry
  globals : m'.globals = m.globals
  limits : m'.limits = m.limits
  closed : m'.closed = m.closed
  guards : m.guards = [] → m'.guards = []
  strings : m.strings.Extends m'.strings
  cached : ∀ key v, (key, v) ∈ m.cache.entries → (key, v) ∈ m'.cache.entries
  ready : m.Ready → m'.Ready

theorem Implements.function (h : m.Implements v code) :
    ∃ g fn, v = .function g ∧ m.heap.function? g = some fn ∧ fn.body.behaviour = .code code := by
  obtain ⟨g, body, hv, hbody, hcode⟩ := h
  obtain ⟨fn, hfn, rfl⟩ := Heap.identity?_function.mp hbody
  exact ⟨g, fn, hv, hfn, hcode⟩

/-- What the functions are found through is kept, and so they are found again. -/
theorem Found.of_kept (kept : Ref → Prop) (h : m.Found code)
    (tables : ∀ s, kept ⟨.table, s⟩ → m'.heap.table s = m.heap.table s)
    (functions : ∀ s, kept ⟨.function, s⟩ → m'.heap.function? s = m.heap.function? s)
    (hroot : ∀ {v r}, m.IsRoot v → v.ref? = some r → kept r)
    (hstep : ∀ {r v r'}, kept r → m.heap.Holds r v → v.ref? = some r' → kept r')
    (strings : m.strings.Extends m'.strings) (globals : m'.globals = m.globals) (cache : m'.cache = m.cache) :
    m'.Found code := by
  have himplements : ∀ {g : Nat}, kept ⟨.function, g⟩ → m.Implements (.function g) code →
      m'.Implements (.function g) code := by
    intro g hk hcode
    obtain ⟨g', fn, heq, hfn, hbehaviour⟩ := hcode.function
    obtain rfl : g = g' := by simpa using heq
    exact ⟨g, fn.body, rfl, Heap.identity?_function.mpr ⟨fn, (functions g hk).trans hfn, rfl⟩, hbehaviour⟩
  have hentry : ∀ {table : Nat} {name : String} {r : Ref}, kept ⟨.table, table⟩ →
      m.Entry table name (.object r) → m'.Entry table name (.object r) ∧ kept r := by
    intro table name r hk hentry
    obtain ⟨id, hid, hget⟩ := hentry
    have hheld : m.heap.Holds ⟨.table, table⟩ ((m.heap.table table).get (.string id)) :=
      Heap.holds_get (by rw [hget]; rfl)
    rw [hget] at hheld
    exact ⟨⟨id, strings id _ hid, by rw [tables table hk, hget]⟩, hstep hk hheld rfl⟩
  rcases h with ⟨v, hv, hcode⟩ | ⟨hnone, classes, field, v, hpath, hclass, hfield, hcode⟩
  · obtain ⟨g, fn, rfl, -⟩ := hcode.function
    exact .inl ⟨_, cache ▸ hv, himplements (hroot (.cached (IdentityCache.mem_entries hv)) rfl) hcode⟩
  · obtain ⟨g, fn, rfl, -⟩ := hcode.function
    obtain ⟨hclass', hk⟩ := hentry (hroot .globals rfl) hclass
    obtain ⟨hfield', hk'⟩ := hentry hk hfield
    exact .inr ⟨cache ▸ hnone, classes, field, _, hpath, globals ▸ hclass', hfield', himplements hk' hcode⟩

theorem Found.of_eq (h : m.Found code) (tables : m'.heap.tables = m.heap.tables)
    (functions : m'.heap.functions = m.heap.functions) (strings : m.strings.Extends m'.strings)
    (globals : m'.globals = m.globals) (cache : m'.cache = m.cache) : m'.Found code :=
  h.of_kept (fun _ => True) (fun s _ => by rw [Heap.table, Heap.table, tables])
    (fun s _ => by rw [Heap.function?, Heap.function?, functions]) (fun _ _ => trivial) (fun _ _ _ => trivial)
    strings globals cache

theorem Ready.of_eq (h : m.Ready) (tables : m'.heap.tables = m.heap.tables)
    (functions : m'.heap.functions = m.heap.functions) (strings : m'.strings = m.strings)
    (globals : m'.globals = m.globals) (cache : m'.cache = m.cache) : m'.Ready :=
  ⟨strings ▸ h.strings, fun code hcode =>
    (h.found code hcode).of_eq tables functions (by rw [strings]; exact .refl _) globals cache⟩

namespace Passes

theorem refl (m : Machine) : m.Passes m :=
  ⟨rfl, rfl, rfl, rfl, rfl, rfl, id, .refl _, fun _ _ => id, id⟩

theorem trans (h : m.Passes m') (h' : m'.Passes m'') : m.Passes m'' :=
  ⟨h'.heap.trans h.heap, h'.destroyed.trans h.destroyed, h'.registry.trans h.registry,
    h'.globals.trans h.globals, h'.limits.trans h.limits, h'.closed.trans h.closed,
    fun hguards => h'.guards (h.guards hguards), h.strings.trans h'.strings,
    fun key v hin => h'.cached key v (h.cached key v hin), fun hready => h'.ready (h.ready hready)⟩

/-- Nothing but stack, frames and guards, and what is recorded. -/
theorem of_eq (heap : m'.heap = m.heap) (destroyed : m'.destroyed = m.destroyed)
    (registry : m'.registry = m.registry) (globals : m'.globals = m.globals) (limits : m'.limits = m.limits)
    (closed : m'.closed = m.closed) (guards : m.guards = [] → m'.guards = []) (strings : m'.strings = m.strings)
    (cache : m'.cache = m.cache) : m.Passes m' where
  heap := heap
  destroyed := destroyed
  registry := registry
  globals := globals
  limits := limits
  closed := closed
  guards := guards
  strings := by
    rw [strings]
    exact .refl _
  cached key v hin := cache ▸ hin
  ready h := h.of_eq (by rw [heap]) (by rw [heap]) strings globals cache

theorem push : m.Passes (m.push v) := .of_eq rfl rfl rfl rfl rfl rfl id rfl rfl

theorem setTop {n : Nat} : m.Passes (m.setTop n) := by
  obtain ⟨stack, heq⟩ := m.setTop_eq n
  rw [heq]
  exact .of_eq rfl rfl rfl rfl rfl rfl id rfl rfl

theorem intern (bytes : Bytes) : m.Passes (m.intern bytes).2 where
  heap := rfl
  destroyed := rfl
  registry := rfl
  globals := rfl
  limits := rfl
  closed := rfl
  guards := id
  strings := m.strings.extends_intern bytes
  cached _ _ := id
  ready h := ⟨StringPool.intern_sound h.strings, fun code hcode =>
    (h.found code hcode).of_eq rfl rfl (m.strings.extends_intern bytes) rfl rfl⟩

/-- A function that was found is cached. -/
theorem cache (hcode : code ∈ Class.codes) (hv : m.Implements v code)
    (hnone : m.cache.get? (.token (Class.token code)) = none) :
    m.Passes { m with cache := m.cache.insert (.token (Class.token code)) v } where
  heap := rfl
  destroyed := rfl
  registry := rfl
  globals := rfl
  limits := rfl
  closed := rfl
  guards := id
  strings := .refl _
  cached key w hin := by
    have hother : key ≠ .token (Class.token code) := by
      rintro rfl
      have hout := List.lookup_eq_none_iff.mp hnone _ hin
      simp at hout
    obtain ⟨g, fn, rfl, -⟩ := hv.function
    refine List.mem_cons_of_mem _ (List.mem_filter.mpr ⟨hin, ?_⟩)
    simpa using hother
  ready h := by
    obtain ⟨g, fn, rfl, -⟩ := hv.function
    refine ⟨h.strings, fun other hother => ?_⟩
    by_cases hsame : other = code
    · subst hsame
      refine .inl ⟨_, ?_, hv⟩
      rw [IdentityCache.get?_insert, if_pos rfl]
      rfl
    · have htoken : (.token (Class.token other) : CacheKey NativeCode) ≠ .token (Class.token code) := by
        simp only [Class.codes, Class.functions, List.map_cons, List.map_nil, List.mem_cons, List.not_mem_nil,
          or_false] at hcode hother
        rcases hcode with rfl | rfl | rfl <;> rcases hother with rfl | rfl | rfl <;>
          simp [Class.token] at hsame ⊢
      have hget : (m.cache.insert (.token (Class.token code)) (.function g)).get? (.token (Class.token other)) =
          m.cache.get? (.token (Class.token other)) := by
        rw [IdentityCache.get?_insert, if_neg htoken]
      rcases h.found other hother with ⟨w, hw, himplements⟩ | ⟨hnone, hpath⟩
      · exact .inl ⟨w, hget.trans hw, himplements⟩
      · exact .inr ⟨hget.trans hnone, hpath⟩

end Passes

theorem framed_push (hm : m.Framed) : (m.push v).Framed := by
  unfold Framed at *
  rw [push, Array.size_push]
  exact Nat.le_succ_of_le hm

theorem intern_known {id : StringId} {bytes : Bytes} (hs : m.strings.Sound)
    (hid : m.strings.strings[id]? = some bytes) : m.intern bytes = (id, m) := by
  rw [Machine.intern, StringPool.intern_again hs hid]

theorem kindAt_push (hm : m.Framed) : (m.push v).kindAt .top = v.kind := by
  have hl : Laid m.base (m.stack.toList ++ v :: []) (m.push v) := Laid.push ⟨rfl, rfl⟩
  have hposition := hl.position_fromTop (by rw [Array.length_toList]; exact hm) (n := 1) rfl
  have htop : (m.push v).value .top = v := topValue_push hm
  rw [kindAt, htop, isValid, StackIndex.top, hposition]
  rfl

/-- The value below the top one is taken out. -/
theorem eraseAt_push : ((m.push v).push w).eraseAt m.stack.size = m.push w := by
  have hstack : ((m.stack.push v).push w).eraseIdxIfInBounds m.stack.size = m.stack.push w := by
    rw [← Array.toList_inj, Array.toList_eraseIdxIfInBounds, Array.toList_push, Array.toList_push, Array.toList_push,
      List.append_assoc, ← Array.length_toList, List.eraseIdx_append_of_length_le (Nat.le_refl _), Nat.sub_self]
    rfl
  rw [eraseAt]
  exact congrArg (fun stack => { m with stack }) hstack

/-- The position of the value on top. -/
theorem absolute_top (hm : m.Framed) : ∃ n, (m.push v).absolute .top = .fromBottom n ∧
    ∀ w, ((m.push v).push w).value (.fromBottom n) = v := by
  have hb : m.base ≤ m.stack.toList.length := by
    rw [Array.length_toList]
    exact hm
  have hl : Laid m.base (m.stack.toList ++ [v]) (m.push v) := Laid.push ⟨rfl, rfl⟩
  have htop : (m.push v).top = m.stack.toList.length - m.base + 1 := by
    rw [hl.top, List.length_append, List.length_singleton]
    omega
  refine ⟨m.stack.toList.length - m.base + 1, ?_, fun w => ?_⟩
  · rw [StackIndex.top, absolute, htop, if_pos (by omega)]
    rfl
  · have hl' := hl.push (v := w)
    rw [List.append_assoc] at hl'
    exact hl'.value_fromBottom hb (by omega)

end Machine

/-! ## Finding the functions -/

namespace Act

variable {host : Host} {m : Machine} {code : NativeCode} {name segment : String} {rest : List String}
  {v w : Value} {table : Nat}

/-- The value of a name in a table is that of the table itself, if it has one or no field to go on by. -/
theorem getField_table (hm : m.Framed)
    (hget : (m.heap.table table).get (.string (m.intern (Utf8.encode name)).1) = v)
    (hv : v.isNil = false ∨ (m.metafield (.table table) .index).isNil = true) :
    getField .top name host (m.push (.table table)) =
      .ok v.kind (((m.intern (Utf8.encode name)).2.push (.table table)).push v) := by
  let known := (m.intern (Utf8.encode name)).2
  let key : Value := .string (m.intern (Utf8.encode name)).1
  obtain ⟨n, hn, htable⟩ := absolute_top (v := .table table) hm
  have hframed : (known.push (.table table)).Framed := framed_push (m := known) hm
  have hhop : ((known.push (.table table)).push key).readHop (.table table) key = .ok (.done v) := by
    have hraw : ((known.push (.table table)).push key).rawGet table key = v := hget
    have hfield : ((known.push (.table table)).push key).metafield (.table table) .index =
        m.metafield (.table table) .index := rfl
    simp only [Machine.readHop, hraw, hfield]
    rcases hv with hv | hv <;> simp [hv]
  have hchain : readChain (.table table) key maxChain host ((known.push (.table table)).push key) =
      .ok v ((known.push (.table table)).push key) := by
    rw [maxChain, readChain, run_bind, run_get]
    simp only [hhop]
    rfl
  have htable' : ((known.push (.table table)).push key).value (.fromBottom n) = .table table := htable key
  have hpop : ((known.push (.table table)).push key).pop 1 = known.push (.table table) := pop_push hframed
  have hread : getTable (.fromBottom n) host ((known.push (.table table)).push key) =
      .ok v.kind ((known.push (.table table)).push v) := by
    rw [getTable, run_bind, run_get]
    dsimp only
    rw [htable', topValue_push hframed, bind_ok hchain, run_bind, run_modify]
    dsimp only
    rw [hpop]
    rfl
  rw [getField, run_bind, run_get]
  dsimp only
  rw [hn, run_bind, run_modify]
  exact hread

theorem getField_entry (hm : m.Framed) (hs : m.strings.Sound) (h : m.Entry table name v) (hv : v.isNil = false) :
    getField .top name host (m.push (.table table)) = .ok v.kind ((m.push (.table table)).push v) := by
  obtain ⟨id, hid, hget⟩ := h
  have hknown : m.intern (Utf8.encode name) = (id, m) := intern_known hs hid
  rw [getField_table hm (by rw [hknown]; exact hget) (.inl hv), hknown]

/-- The value below the top one is removed. -/
theorem remove_push (hm : m.Framed) : Op.remove (.fromTop 2) ((m.push v).push w) = .ok () (m.push w) := by
  have hl : Laid m.base (m.stack.toList ++ v :: [w]) ((m.push v).push w) := by
    simpa using (Laid.push (v := w) (Laid.push (v := v) (⟨rfl, rfl⟩ : Laid m.base m.stack.toList m)))
  have hposition := hl.position_fromTop (by rw [Array.length_toList]; exact hm) (n := 2) rfl
  rw [Op.remove, Op.run_bind, Op.position_eq, hposition, Array.length_toList]
  dsimp only
  rw [Op.run_modify, eraseAt_push]

theorem followPath_entry (hm : m.Framed) (hs : m.strings.Sound) (h : m.Entry table segment v)
    (hv : v.isNil = false) : followPath (segment :: rest) host (m.push (.table table)) =
      followPath rest host (m.push v) := by
  rw [followPath, bind_ok (getField_entry hm hs h hv), bind_ok (run_lift.trans (remove_push hm))]

/-- A global that is found along its path is pushed. -/
theorem getGlobal_found {m' : Machine}
    (h : followPath (Path.segments name) host (m.push (.table m.globals)) = .ok () m') :
    getGlobal name host m = .ok (m'.kindAt .top) m' := by
  have hpush : m.pushAt .environment = m.push (.table m.globals) := rfl
  rw [getGlobal, run_bind, run_get]
  dsimp only
  rw [run_bind, run_modify]
  dsimp only
  rw [hpush, run_bind, run_attempt, h]
  rfl

theorem getGlobal_failed {m' : Machine} {e : ScriptError}
    (h : followPath (Path.segments name) host (m.push (.table m.globals)) = .error e m') :
    getGlobal name host m = .error e (m'.setTop m.top) := by
  have hpush : m.pushAt .environment = m.push (.table m.globals) := rfl
  rw [getGlobal, run_bind, run_get]
  dsimp only
  rw [run_bind, run_modify]
  dsimp only
  rw [hpush, run_bind, run_attempt, h]
  rfl

/-- The global table `class` is found. -/
theorem getGlobal_class (host : Host) (hm : m.Framed) (hs : m.strings.Sound)
    (hclass : m.Entry m.globals "class" (.table table)) :
    getGlobal "class" host m = .ok .table (m.push (.table table)) := by
  have hfollow : followPath (Path.segments "class") host (m.push (.table m.globals)) =
      .ok () (m.push (.table table)) := by
    rw [show Path.segments "class" = ["class"] by decide +kernel, followPath_entry hm hs hclass rfl]
    rfl
  rw [getGlobal_found hfollow, kindAt_push hm]
  rfl

/-- A function of the library is pushed. -/
theorem pushClassFunction_eq (host : Host) (hm : m.Framed) (hready : m.Ready) (hcode : code ∈ Class.codes) :
    ∃ cache v, pushClassFunction code host m = .ok () ({ m with cache }.push v) ∧
      { m with cache }.Implements v code ∧ m.Passes { m with cache } := by
  rw [pushClassFunction, run_bind, cacheGet_eq]
  rcases hready.found code hcode with
    ⟨v, hv, himplements⟩ | ⟨hnone, classes, field, v, hpath, hclass, hfield, himplements⟩
  · rw [hv]
    exact ⟨m.cache, v, rfl, himplements, .refl m⟩
  · obtain ⟨g, fn, rfl, -⟩ := himplements.function
    have hs := hready.strings
    have hfunction : ∃ kind, getGlobal (Class.path code) host m = .ok kind (m.push (.function g)) := by
      refine ⟨_, getGlobal_found ?_⟩
      rw [hpath, followPath_entry hm hs hclass rfl, followPath_entry hm hs hfield rfl]
      rfl
    obtain ⟨kind, hfunction⟩ := hfunction
    have hcached : cachedGlobal (Class.path code) (.token (Class.token code)) host m =
        .ok () ({ m with cache := m.cache.insert (.token (Class.token code)) (.function g) }.push (.function g)) := by
      rw [cachedGlobal, run_bind, cacheGet_eq, hnone]
      simp only [Bool.not_false, if_true]
      rw [bind_ok hfunction, cacheSet, run_modify, topValue_push hm]
      rfl
    rw [hnone]
    simp only [Bool.not_false, if_true]
    rw [bind_ok (getGlobal_class host hm hs hclass), run_bind, run_modify]
    dsimp only
    rw [show (m.push (.table classes)).pop 1 = m from pop_push hm]
    rw [if_neg fun hne => hne rfl]
    exact ⟨_, .function g, hcached, himplements.extend fun hid => hid, .cache hcode himplements hnone⟩

end Act

/-! ## Calls -/

namespace Machine

variable {m : Machine} {f : Nat} {args : List Value} {o : Origin} {e : ScriptError}

theorem Passes.pushCall : m.Passes (m.pushCall f args) := by
  rw [pushCall_eq]
  exact .of_eq rfl rfl rfl rfl rfl rfl id rfl rfl

theorem Passes.inCall : m.Passes (m.inCall f args o) := by
  rw [Machine.inCall, pushCall_eq]
  exact .of_eq rfl rfl rfl rfl rfl rfl id rfl rfl

theorem Passes.returnResults (position : Nat) (wanted : Int) (count : Nat) :
    m.Passes (m.returnResults position wanted count) := by
  have hguards : (m.returnResults position wanted count).guards = m.forgetDecoration.guards := by
    unfold Machine.returnResults
    dsimp only
    split
    · rfl
    · obtain ⟨stack, heq⟩ := resize_eq _ (position + wanted.toNat)
      rw [heq]
      rfl
  rw [forgetDecoration_eq] at hguards
  obtain ⟨stack, frames, guards, heq⟩ := m.returnResults_eq position wanted count
  rw [heq] at hguards ⊢
  refine .of_eq rfl rfl rfl rfl rfl rfl (fun hnone => ?_) rfl rfl
  rw [hguards, hnone]
  rfl

theorem Passes.errorValue : m.Passes (m.errorValue e).2 := by
  cases e with
  | value v => exact .refl m
  | runtime | stackOverflow | errorInHandler => exact .intern _

end Machine

namespace Act

variable {host : Host} {m : Machine} {f : Nat} {args : List Value} {fn : Closure Native}

/-- Where there is no protected call, an error is shown to nobody. -/
theorem passes_failed (e : ScriptError) (hguards : m.guards = []) :
    m.Passes ((Op.after ((showHandler e : Act ScriptError Unit) host) m).leaveFrame) := by
  have hidle : ∀ handler, ¬ m.Heeds handler := by
    rintro handler ⟨g, rest, hsome, -⟩
    rw [hguards] at hsome
    cases hsome
  rw [Op.after_ok (showHandler_idle hidle)]
  exact Passes.errorValue.trans (.of_eq rfl rfl rfl rfl rfl rfl id rfl rfl)

/-- A function that leaves the heap alone is called for one value. -/
theorem callAt_passes {R : Value → Prop} (hhost : host.Lawful) (hguards : m.guards = [])
    (hf : m.heap.function? f = some fn)
    (hbody : Ended (fun n left => (m.inCall f args fn.body.origin).Passes left ∧ R (left.result n))
      (m.inCall f args fn.body.origin).Passes (host.enter fn.body.behaviour (m.inCall f args fn.body.origin))) :
    Ended (fun _ m' => m.Passes m' ∧ m'.frames = m.frames ∧ ∃ v, m'.stack = m.stack.push v ∧ R v) m.Passes
      (callAt m.stack.size 1 host (m.pushCall f args)) := by
  have hinside : m.Passes (m.inCall f args fn.body.origin) := .inCall
  by_cases hroom : (m.pushCall f args).atLimit = true
  · rw [callAt, invoke_eq, if_pos hroom]
    exact .pushCall
  · cases hrun : host.enter fn.body.behaviour (m.inCall f args fn.body.origin) with
    | error e left =>
        rw [hrun] at hbody
        rw [(enters_inCall (Bool.eq_false_iff.mpr hroom) hf).fails hrun 1]
        exact (hinside.trans hbody).trans (passes_failed e ((hinside.trans hbody).guards hguards))
    | ok n left =>
        rw [hrun] at hbody
        obtain ⟨hleft, hresult⟩ := hbody
        obtain ⟨m', hcall, hanswered⟩ := callAt_answered hhost (Bool.eq_false_iff.mpr hroom) hf hrun
          (hinside.trans hleft).closed
        have hreturned := (enters_inCall (Bool.eq_false_iff.mpr hroom) hf).returns hrun 1
        have hcalled : callAt m.stack.size 1 host (m.pushCall f args) = _ := hcall
        rw [hcalled] at hreturned
        cases hreturned
        rw [hcalled]
        exact ⟨(hinside.trans hleft).trans (.returnResults _ _ _), hanswered.frames, _, hanswered.stack, hresult⟩

end Act

/-! ## Indices -/

namespace Machine

variable {m m' m'' : Machine} {i : StackIndex} {v w : Value} {b n : Nat} {s : List Value}

/-- The frame is back as it was, and nothing else happened. -/
structure Back (m m' : Machine) : Prop where
  passes : m.Passes m'
  stack : m'.stack = m.stack
  frames : m'.frames = m.frames

/-- An index names a value, and goes on naming it while values are pushed above it. -/
structure Pins (m : Machine) (i : StackIndex) (v : Value) : Prop where
  absolute : ∀ m' : Machine, m'.absolute i = i
  value : ∀ m', m.Passes m' → m'.frames = m.frames → m.stack.toList <+: m'.stack.toList → m'.value i = v

namespace Back

theorem refl (m : Machine) : m.Back m := ⟨.refl m, rfl, rfl⟩

theorem trans (h : m.Back m') (h' : m'.Back m'') : m.Back m'' :=
  ⟨h.passes.trans h'.passes, h'.stack.trans h.stack, h'.frames.trans h.frames⟩

theorem intern (m : Machine) (bytes : Bytes) : m.Back (m.intern bytes).2 := ⟨.intern bytes, rfl, rfl⟩

theorem framed (h : m.Back m') (hm : m.Framed) : m'.Framed := by
  unfold Framed base
  rw [h.stack, h.frames]
  exact hm

theorem value (h : m.Back m') (i : StackIndex) : m'.value i = m.value i := by
  have hposition : ∀ i, m'.position? i = m.position? i := by
    intro i
    have hbase : m'.base = m.base := by rw [base, base, h.frames]
    unfold position? top
    rw [hbase, h.stack]
  cases i with
  | registry => exact congrArg Value.table h.passes.registry
  | environment => exact congrArg Value.table h.passes.globals
  | upvalue n => simp only [Machine.value, upvalue?, runningFunction?, h.stack, h.frames, h.passes.heap]
  | fromBottom n | fromTop n => simp only [Machine.value, hposition, h.stack]

theorem pins (h : m.Back m') (hi : m.Pins i v) : m'.Pins i v where
  absolute := hi.absolute
  value m'' hpasses hframes hstack := hi.value m'' (h.passes.trans hpasses) (hframes.trans h.frames)
    (h.stack ▸ hstack)

/-- What was pushed and taken off again. -/
theorem of_push (h : m.Passes m') (hstack : m'.stack = m.stack.push v) (hframes : m'.frames = m.frames) :
    ∃ m₁, m' = m₁.push v ∧ m.Back m₁ := by
  refine ⟨{ m' with stack := m.stack }, ?_, h.trans (.of_eq rfl rfl rfl rfl rfl rfl id rfl rfl), rfl, hframes⟩
  rw [push, ← hstack]

end Back

theorem Pins.self (h : m.Pins i v) : m.value i = v := h.value m (.refl m) rfl List.prefix_rfl

theorem pins_pseudo (hi : i = .registry ∨ i = .environment) : m.Pins i (m.value i) := by
  rcases hi with rfl | rfl
  · exact ⟨fun _ => rfl, fun m' hpasses _ _ => congrArg Value.table hpasses.registry⟩
  · exact ⟨fun _ => rfl, fun m' hpasses _ _ => congrArg Value.table hpasses.globals⟩

/-- What is pushed lies above it. -/
theorem Pins.push (h : m.Pins i v) (w : Value) : (m.push w).Pins i v where
  absolute := h.absolute
  value m' hpasses hframes hstack := by
    have hpush : m.Passes (m.push w) := .of_eq rfl rfl rfl rfl rfl rfl id rfl rfl
    have habove : m.stack.toList <+: (m.push w).stack.toList := ⟨[w], by simp [Machine.push]⟩
    exact h.value m' (hpush.trans hpasses) hframes (habove.trans hstack)

/-- A position of the frame is counted from its bottom. -/
theorem pins_fromBottom (h : Laid b (s ++ v :: t) m) (hb : b ≤ s.length) (hn : b + n = s.length + 1) :
    m.Pins (.fromBottom n) v where
  absolute _ := rfl
  value m' _ hframes hstack := by
    obtain ⟨rest, hrest⟩ := hstack
    rw [h.stack, List.append_assoc, List.cons_append] at hrest
    have hl : Laid b (s ++ v :: (t ++ rest)) m' := ⟨by rw [base, hframes]; exact h.base, hrest.symm⟩
    exact hl.value_fromBottom hb hn

/-- What is pushed may be named by an index that named nothing before. -/
theorem value_push (m : Machine) (w : Value) (n : Nat) :
    (m.push w).value (.fromBottom n) = m.value (.fromBottom n) ∨ (m.push w).value (.fromBottom n) = w := by
  change (((m.push w).position? (.fromBottom n)).bind fun p => (m.push w).stack[p]?).getD .nil =
      ((m.position? (.fromBottom n)).bind fun p => m.stack[p]?).getD .nil ∨
    (((m.push w).position? (.fromBottom n)).bind fun p => (m.push w).stack[p]?).getD .nil = w
  have hbase : (m.push w).base = m.base := rfl
  have hsize : (m.push w).stack.size = m.stack.size + 1 := Array.size_push w
  rw [position?, position?, hbase, hsize]
  by_cases hbelow : 1 ≤ n ∧ m.base + n ≤ m.stack.size
  · rw [if_pos (by omega), if_pos hbelow]
    have hlt : m.base + n - 1 < m.stack.size := by omega
    rw [Option.bind_some, Option.bind_some, push, Array.getElem?_push_lt hlt, Array.getElem?_eq_getElem hlt]
    exact .inl rfl
  · by_cases hat : 1 ≤ n ∧ m.base + n ≤ m.stack.size + 1
    · rw [if_pos hat, Option.bind_some, show m.base + n - 1 = m.stack.size by omega]
      exact .inr (by simp [push])
    · rw [if_neg hat, if_neg hbelow]
      exact .inl rfl

theorem value_of_position? (hposition : m.position? (.fromBottom n) = none) : m.value (.fromBottom n) = .nil := by
  change ((m.position? (.fromBottom n)).bind fun p => m.stack[p]?).getD .nil = .nil
  rw [hposition]
  rfl

theorem value_beyond_top (hn : ¬ n ≤ m.top) : m.value (.fromTop n) = .nil := by
  have hposition : m.position? (.fromTop n) = none := if_neg fun hin => hn hin.2
  change ((m.position? (.fromTop n)).bind fun p => m.stack[p]?).getD .nil = .nil
  rw [hposition]
  rfl

/-- A value of the frame is named by its position. -/
theorem pins_inside (hin : 1 ≤ n ∧ m.base + n ≤ m.stack.size) :
    m.Pins (.fromBottom n) (m.value (.fromBottom n)) := by
  have hlt : m.base + n - 1 < m.stack.toList.length := by
    rw [Array.length_toList]
    omega
  have hsplit : m.stack.toList = m.stack.toList.take (m.base + n - 1) ++
      m.stack.toList[m.base + n - 1] :: m.stack.toList.drop (m.base + n - 1 + 1) := by
    rw [← List.drop_eq_getElem_cons hlt, List.take_append_drop]
  have hl : Laid m.base _ m := ⟨rfl, hsplit⟩
  have hlength : (m.stack.toList.take (m.base + n - 1)).length = m.base + n - 1 :=
    List.length_take_of_le (Nat.le_of_lt hlt)
  have hpins := pins_fromBottom hl (by omega) (n := n) (by omega)
  rw [hpins.self]
  exact hpins

/-- A value other than nil that a position names lies in the frame. -/
theorem pins_position (hv : m.value (.fromBottom n) = v) (hnil : v ≠ .nil) : m.Pins (.fromBottom n) v := by
  by_cases hin : 1 ≤ n ∧ m.base + n ≤ m.stack.size
  · exact hv ▸ pins_inside hin
  · exact absurd (hv.symm.trans (value_of_position? (if_neg hin))) hnil

/-- The running function stays while values are pushed. -/
theorem upvalue?_extended (hpasses : m.Passes m') (hframes : m'.frames = m.frames)
    (hstack : m.stack.toList <+: m'.stack.toList) (hw : m.upvalue? n = some w) : m'.upvalue? n = some w := by
  have hrunning : ∀ slot, m.runningFunction? = some slot → m'.runningFunction? = some slot := by
    intro slot h
    unfold runningFunction? at h ⊢
    rw [hframes]
    cases hf : m.frames with
    | nil => simp [hf] at h
    | cons f rest =>
        simp only [hf] at h ⊢
        cases hat : m.stack[f.function]? with
        | none => simp [hat] at h
        | some x =>
            obtain ⟨rest, hrest⟩ := hstack
            have hat' : m'.stack[f.function]? = some x := by
              rw [← Array.getElem?_toList, ← hrest]
              rw [← Array.getElem?_toList] at hat
              rw [List.getElem?_append_left (List.getElem?_eq_some_iff.mp hat).1, hat]
            rw [hat] at h
            rw [hat']
            exact h
  unfold upvalue? at hw ⊢
  by_cases hn : n = 0
  · simp [hn] at hw
  · rw [if_neg hn] at hw ⊢
    cases hslot : m.runningFunction? with
    | none => simp [hslot] at hw
    | some slot =>
        rw [hslot] at hw
        rw [hrunning slot hslot, hpasses.heap]
        exact hw

/-- An index that is made absolute names what it named. -/
theorem value_absolute (m : Machine) (i : StackIndex) : m.value (m.absolute i) = m.value i := by
  cases i with
  | registry | environment | upvalue | fromBottom => rfl
  | fromTop n =>
      by_cases hn : n ≤ m.top
      · have hposition : m.position? (.fromBottom (m.top + 1 - n)) = m.position? (.fromTop n) := by
          simp only [position?]
          unfold top at hn ⊢
          by_cases hpos : 1 ≤ n
          · rw [if_pos (by omega), if_pos ⟨hpos, hn⟩]
            congr 1
            omega
          · rw [if_neg (by omega), if_neg fun h => hpos h.1]
        rw [absolute, if_pos hn]
        simp only [value, hposition]
      · rw [absolute, if_neg hn]

/-- An index that names something goes on naming it once it is absolute. -/
theorem pins_absolute (hv : m.value (m.absolute i) = v) (hnil : v ≠ .nil) : m.Pins (m.absolute i) v := by
  cases i with
  | fromBottom n => exact pins_position hv hnil
  | fromTop n =>
      by_cases hn : n ≤ m.top
      · have habsolute : m.absolute (.fromTop n) = .fromBottom (m.top + 1 - n) := if_pos hn
        rw [habsolute] at hv ⊢
        exact pins_position hv hnil
      · have habsolute : m.absolute (.fromTop n) = .fromTop n := if_neg hn
        rw [habsolute, value_beyond_top hn] at hv
        exact absurd hv.symm hnil
  | registry => exact hv ▸ pins_pseudo (.inl rfl)
  | environment => exact hv ▸ pins_pseudo (.inr rfl)
  | upvalue k =>
      have hvalue : (m.upvalue? k).getD .nil = v := hv
      refine ⟨fun _ => rfl, fun m' hpasses hframes hstack => ?_⟩
      change (m'.upvalue? k).getD .nil = v
      cases hk : m.upvalue? k with
      | none =>
          rw [hk] at hvalue
          exact absurd hvalue.symm hnil
      | some w => rw [upvalue?_extended hpasses hframes hstack hk, ← hvalue, hk]

end Machine

end ScriptHost
