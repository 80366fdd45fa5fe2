import ScriptHost.Proofs.Library
import ScriptHost.Proofs.Property

/-! # Looking at instances

The functions that tell instances from other values leave the heap alone. So the object behind a handle or a
boxed instance is found without a trace, or the search fails without one.
-/

namespace ScriptHost

open Machine

namespace Machine

variable {m m' : Machine} {i : StackIndex} {v : Value} {mt : Nat}

/-- The metatable of a value is marked as that of a class. -/
def Marked (m : Machine) (v : Value) : Prop :=
  ∃ mt, m.metatable? v = some mt ∧ ∃ id : Nat, m.strings.strings[id]? = some (Utf8.encode Class.markerField) ∧
    ((m.heap.table mt).get (.string id)).kind = .boolean

theorem result_push (hm : m.Framed) : (m.push v).result 1 = v := by
  have hl : Laid m.base (m.stack.toList ++ [v]) (m.push v) := .push ⟨rfl, rfl⟩
  exact hl.result_one (by rw [Array.length_toList]; exact hm)

theorem metatable?_passes (h : m.Passes m') : m'.metatable? v = m.metatable? v := by
  cases v with
  | object r => simp only [metatable?, h.heap]
  | nil | bool | float | int | string | light | foreign => rfl

theorem address?_passes (h : m.Passes m') : m'.address? v = m.address? v := by
  cases v with
  | object r => simp only [address?, h.heap]
  | nil | bool | float | int | string | light | foreign => rfl

theorem Marked.passes (h : m.Marked v) (hpasses : m.Passes m') : m'.Marked v := by
  obtain ⟨mt, hmt, id, hid, hentry⟩ := h
  exact ⟨mt, (metatable?_passes hpasses).trans hmt, id, hpasses.strings id _ hid, hpasses.heap ▸ hentry⟩

theorem SharedClass.passes (h : m.SharedClass mt) (hpasses : m.Passes m') : m'.SharedClass mt :=
  h.of_eq (by rw [hpasses.heap]) (by rw [hpasses.heap]) hpasses.registry hpasses.strings

theorem userdata_of_metatable? (hmt : m.metatable? v = some mt) (hv : ∀ slot, v ≠ .table slot) :
    ∃ slot, v = .userdata slot := by
  cases v with
  | object r =>
      obtain ⟨kind, slot⟩ := r
      cases kind with
      | userdata => exact ⟨slot, rfl⟩
      | table => exact absurd rfl (hv slot)
      | function | boxed => cases hmt
  | nil | bool | float | int | string | light | foreign => cases hmt

theorem stringAt_string {id : StringId} (hv : m.value i = .string id) : m.stringAt i = (some id, m) := by
  rw [stringAt, hv]

theorem same_table (h : m.rawEqual v (.table mt) = true) : v = .table mt := by
  have hsame : v.same (.table mt) = true := by
    unfold rawEqual at h
    rw [toInt?_object (fun hkind => by cases hkind)] at h
    cases hv : m.heap.toInt? v <;> rwa [hv] at h
  cases v with
  | object r => exact eq_of_beq hsame
  | nil | bool | float | int | string | light | foreign => exact absurd hsame Bool.false_ne_true

theorem rawEqual_table : m.rawEqual (.table mt) (.table mt) = true := by
  have hsame : (Value.table mt).same (.table mt) = true := beq_self_eq_true _
  unfold rawEqual
  rw [toInt?_object (fun hkind => by cases hkind)]
  exact hsame

end Machine

/-! ## Telling instances from other values -/

namespace Op

variable {m : Machine} {n : Nat} {text : String}

theorem checkString_string {id : StringId} (hv : m.value (.argument n) = .string id) :
    checkString n m = .ok id m := by
  rw [checkString, bind_ok (run_stringAt (stringAt_string hv))]
  rfl

theorem checkText_eq (h : m.IsTextOf (m.value (.argument n)) text) : checkText n m = .ok text m := by
  have hdecode := h
  obtain ⟨id, hv, -⟩ := h
  rw [hv] at hdecode
  rw [checkText, bind_ok (checkString_string hv), bind_ok run_get, hdecode.decode]
  rfl

end Op

namespace Act

variable {host : Host} {m : Machine} {v : Value} {i : StackIndex} {name : String}

theorem classMetatable_other (host : Host) (hkind : m.kindAt (.argument 1) ≠ .userdata) :
    classMetatable host m = .ok false m := by
  rw [classMetatable, run_bind, run_get]
  dsimp only
  rw [if_pos hkind]
  rfl

theorem classMetatable_bare (host : Host) (hkind : m.kindAt (.argument 1) = .userdata)
    (hmt : m.metatable? (m.value (.argument 1)) = none) : classMetatable host m = .ok false m := by
  have hpseudo : m.getMetatable (.argument 1) = (false, m) := by
    rw [getMetatable, hmt]
  rw [classMetatable, run_bind, run_get]
  dsimp only
  rw [if_neg (fun hne => hne hkind), run_bind, run_modifyGet, hpseudo]
  rfl

/-- The metatable of a userdata stays on the stack if it has the marker of a class. -/
theorem classMetatable_eq (host : Host) (hm : m.Framed) (hkind : m.kindAt (.argument 1) = .userdata) {mt : Nat}
    (hmt : m.metatable? (m.value (.argument 1)) = some mt) :
    classMetatable host m =
      if ((m.heap.table mt).get (.string (m.intern (Utf8.encode Class.markerField)).1)).kind = .boolean then
        .ok true ((m.intern (Utf8.encode Class.markerField)).2.push (.table mt))
      else .ok false (m.intern (Utf8.encode Class.markerField)).2 := by
  have hpseudo : m.getMetatable (.argument 1) = (true, m.push (.table mt)) := by
    rw [getMetatable, hmt]
  let m₁ := (m.intern (Utf8.encode Class.markerField)).2
  let entry := (m.heap.table mt).get (.string (m.intern (Utf8.encode Class.markerField)).1)
  have hread : Op.rawGetField .top Class.markerField (m.push (.table mt)) =
      .ok entry.kind ((m₁.push (.table mt)).push entry) := rawGetField_eq (topValue_push hm)
  have hpop : ((m₁.push (.table mt)).push entry).pop 1 = m₁.push (.table mt) :=
    pop_push (framed_push (m := m₁) hm)
  have hpop' : (m₁.push (.table mt)).pop 1 = m₁ := pop_push hm
  rw [classMetatable, run_bind, run_get]
  dsimp only
  rw [if_neg (fun hne => hne hkind), run_bind, run_modifyGet, hpseudo]
  dsimp only
  rw [if_neg (by decide), bind_ok (run_lift.trans hread), run_bind, run_modify]
  dsimp only
  rw [hpop]
  by_cases hmarked : entry.kind = .boolean
  · rw [if_pos hmarked, decide_eq_true hmarked]
    rfl
  · rw [if_neg hmarked, decide_eq_false hmarked, if_pos (by decide), run_bind, run_modify]
    dsimp only
    rw [hpop']
    rfl

/-- The metatable of a value of a class is found, and no other. -/
theorem classMetatable_found (host : Host) (hm : m.Framed) (hs : m.strings.Sound)
    (hv : m.value (.argument 1) = v) : ∃ m₁, m.Back m₁ ∧ m₁.strings.Sound ∧
      ((classMetatable host m = .ok false m₁ ∧ ∀ slot, v = .userdata slot → ¬ m.Marked v) ∨
      ∃ slot mt, v = .userdata slot ∧ m.metatable? v = some mt ∧
        classMetatable host m = .ok true (m₁.push (.table mt))) := by
  subst hv
  have hsame : m.value (.argument 1) ≠ .nil → m.kindAt (.argument 1) = (m.value (.argument 1)).kind := kindAt_of_value
  by_cases hkind : m.kindAt (.argument 1) = .userdata
  · cases hmt : m.metatable? (m.value (.argument 1)) with
    | none =>
        refine ⟨m, .refl m, hs, .inl ⟨classMetatable_bare host hkind hmt, fun slot _ hmarked => ?_⟩⟩
        obtain ⟨mt, hsome, -⟩ := hmarked
        rw [hmt] at hsome
        cases hsome
    | some mt =>
        refine ⟨(m.intern (Utf8.encode Class.markerField)).2, .intern m _, StringPool.intern_sound hs, ?_⟩
        rw [classMetatable_eq host hm hkind hmt]
        split
        · obtain ⟨slot, hslot⟩ := userdata_of_metatable? hmt fun slot hv => by
            rw [hsame (by rw [hv]; exact fun heq => by cases heq), hv] at hkind
            cases hkind
          exact .inr ⟨slot, mt, hslot, rfl, rfl⟩
        · rename_i hmarked
          refine .inl ⟨rfl, fun slot _ hclass => hmarked ?_⟩
          -- The name of the marker is interned once.
          obtain ⟨mt', hmt', id, hid, hentry⟩ := hclass
          obtain rfl : mt = mt' := Option.some.inj (hmt.symm.trans hmt')
          rw [intern_known hs hid]
          exact hentry
  · refine ⟨m, .refl m, hs, .inl ⟨classMetatable_other host hkind, fun slot hv => absurd ?_ hkind⟩⟩
    rw [hsame (by rw [hv]; exact fun heq => by cases heq), hv]
    rfl

/-- `class.IsInstance` answers whether a value has the metatable of a class. -/
theorem classIsInstance_eq (host : Host) (hm : m.Framed) (hs : m.strings.Sound) (hv : m.value (.argument 1) = v) :
    ∃ left found, classIsInstance host m = .ok 1 left ∧ m.Passes left ∧ left.result 1 = .bool found ∧
      (found = true → ∃ slot mt, v = .userdata slot ∧ m.metatable? v = some mt) ∧
      ∀ slot, v = .userdata slot → m.Marked v → found = true := by
  obtain ⟨m₁, hback, -, hfound⟩ := classMetatable_found host hm hs hv
  have hframed := hback.framed hm
  rcases hfound with ⟨hrun, hnone⟩ | ⟨slot, mt, rfl, hmt, hrun⟩
  · refine ⟨m₁.push (.bool false), false, ?_, hback.passes.trans .push, result_push hframed,
      fun hc => absurd hc Bool.false_ne_true, fun slot heq hmarked => absurd hmarked (hnone slot heq)⟩
    rw [classIsInstance, bind_ok hrun]
    rfl
  · have hpop : (m₁.push (.table mt)).pop 1 = m₁ := pop_push hframed
    refine ⟨m₁.push (.bool true), true, ?_, hback.passes.trans .push, result_push hframed,
      fun _ => ⟨slot, mt, rfl, hmt⟩, fun _ _ _ => rfl⟩
    rw [classIsInstance, bind_ok hrun]
    dsimp only
    rw [if_pos rfl, run_bind, run_modify]
    dsimp only
    rw [hpop]
    rfl

/-- `class.IsInstance` of an instance of a class is true, and that of anything but a userdata is not. -/
theorem classIsInstance_ended (host : Host) (hm : m.Framed) (hs : m.strings.Sound) (hv : m.value (.argument 1) = v) :
    Ended (fun n left => m.Passes left ∧ ∃ found, left.result n = .bool found ∧
      (found = true → ∃ slot, v = .userdata slot) ∧ ∀ slot, v = .userdata slot → m.Marked v → found = true)
      m.Passes (classIsInstance host m) := by
  obtain ⟨left, found, hrun, hpasses, hresult, hclass, hmarked⟩ := classIsInstance_eq host hm hs hv
  rw [hrun]
  refine ⟨hpasses, found, hresult, fun htrue => ?_, hmarked⟩
  obtain ⟨slot, mt, hslot, -⟩ := hclass htrue
  exact ⟨slot, hslot⟩

/-- `class.IsType` answers whether the metatable of a class is the one that is registered under a name. -/
theorem classIsType_eq {id : StringId} (host : Host) (hm : m.Framed) (hs : m.strings.Sound)
    (hv : m.value (.argument 1) = v) (hname : m.value (.argument 2) = .string id)
    (hid : m.strings.strings[id]? = some (Utf8.encode name)) :
    ∃ left found, classIsType host m = .ok 1 left ∧ m.Passes left ∧ left.result 1 = .bool found ∧
      (found = true → ∃ slot mt, v = .userdata slot ∧ m.metatable? v = some mt ∧
        (m.heap.table m.registry).get (.string id) = .table mt) ∧
      ∀ slot mt, v = .userdata slot → m.Marked v → m.metatable? v = some mt →
        (m.heap.table m.registry).get (.string id) = .table mt → found = true := by
  have htext : m.IsTextOf (m.value (.argument 2)) name := ⟨id, hname, hid⟩
  obtain ⟨m₁, hback, hs₁, hfound⟩ := classMetatable_found host hm hs hv
  have hframed := hback.framed hm
  -- At the end the frame is cut to the arguments, below the answer.
  have hend : ∀ {m₂ : Machine} {found : Bool}, m₂.Framed → ((m₂.setTop 2).push (.bool found)).result 1 = .bool found :=
    fun hm₂ => result_push ((leads_setTop hm₂).framed hm₂)
  rcases hfound with ⟨hrun, hnone⟩ | ⟨slot, mt, rfl, hmt, hrun⟩
  · refine ⟨(m₁.setTop 2).push (.bool false), false, ?_, (hback.passes.trans .setTop).trans .push, hend hframed,
      fun hc => absurd hc Bool.false_ne_true, fun slot _ heq hmarked => absurd hmarked (hnone slot heq)⟩
    rw [classIsType, bind_ok (run_lift.trans (Op.checkText_eq htext)), bind_ok hrun]
    rfl
  · let entry := (m₁.heap.table m₁.registry).get (.string id)
    let m₂ := (m₁.push (.table mt)).push entry
    have hread : Op.getRegistered name (m₁.push (.table mt)) = .ok entry.kind m₂ :=
      rawGetField_found rfl hs₁ (hback.passes.strings id _ hid)
    have hb : m₁.base ≤ m₁.stack.toList.length := by
      rw [Array.length_toList]
      exact hframed
    have hl : Laid m₁.base (m₁.stack.toList ++ .table mt :: [entry]) m₂ := by
      simpa using (Laid.push (v := entry) (Laid.push (v := .table mt) (⟨rfl, rfl⟩ : Laid m₁.base m₁.stack.toList m₁)))
    have hl' : Laid m₁.base ((m₁.stack.toList ++ [.table mt]) ++ entry :: []) m₂ := by simpa using hl
    have hvalues : m₂.value (.fromTop 1) = entry ∧ m₂.value (.fromTop 2) = .table mt :=
      ⟨hl'.value_fromTop (by rw [List.length_append]; omega) rfl, hl.value_fromTop hb rfl⟩
    have hentry : entry = (m.heap.table m.registry).get (.string id) := by
      simp only [entry, hback.passes.heap, hback.passes.registry]
    refine ⟨(m₂.setTop 2).push (.bool (m₂.rawEqual entry (.table mt))), m₂.rawEqual entry (.table mt), ?_,
      (((hback.passes.trans .push).trans .push).trans .setTop).trans .push, hend (framed_push (framed_push hframed)),
      fun hsame => ⟨slot, mt, rfl, hmt, hentry ▸ same_table hsame⟩, fun slot' mt' _ _ hmt' hregistered => ?_⟩
    · rw [classIsType, bind_ok (run_lift.trans (Op.checkText_eq htext)), bind_ok hrun]
      dsimp only
      rw [if_neg (by decide), bind_ok (run_lift.trans hread), run_bind, run_get]
      dsimp only
      rw [hvalues.1, hvalues.2]
      rfl
    · obtain rfl : mt = mt' := Option.some.inj (hmt.symm.trans hmt')
      rw [hentry, hregistered]
      exact rawEqual_table

/-- `class.IsType` with the class of objects that instances hold themselves is not true of instances of other
    classes. -/
theorem classIsType_ended (host : Host) (hm : m.Framed) (hs : m.strings.Sound) (hv : m.value (.argument 1) = v)
    (hname : m.IsTextOf (m.value (.argument 2)) name) :
    Ended (fun n left => m.Passes left ∧ ∃ found, left.result n = .bool found ∧
      ∀ mt, m.metatable? v = some mt → m.SharedClass mt → name = BoundType.shared.typeName → found = false)
      m.Passes (classIsType host m) := by
  obtain ⟨id, hvalue, hid⟩ := hname
  obtain ⟨left, found, hrun, hpasses, hresult, htrue, -⟩ := classIsType_eq host hm hs hv hvalue hid
  rw [hrun]
  refine ⟨hpasses, found, hresult, ?_⟩
  rintro mt hmt hclass rfl
  refine Bool.eq_false_iff.mpr fun hfound => ?_
  obtain ⟨slot, mt', -, hmt', hentry⟩ := htrue hfound
  obtain rfl : mt = mt' := Option.some.inj (hmt.symm.trans hmt')
  obtain ⟨bytes, hbytes, hne⟩ := hclass.name id hentry
  exact hne (Option.some.inj (hbytes.symm.trans hid))

end Act

/-! ## What lies behind a value -/

namespace Machine

variable {m m' : Machine} {v : Value} {a : Address} {slot : Nat}

/-- Of userdata, only instances of the classes of shared objects. -/
def Proper (m : Machine) (v : Value) : Prop :=
  ∀ slot, v = .userdata slot →
    ∃ u mt, m.heap.userdata? slot = some u ∧ u.metatable = some mt ∧ m.SharedClass mt

/-- An address lies behind a value: a handle holds it, or an instance points to it. -/
def Behind (m : Machine) (v : Value) (a : Address) : Prop :=
  a ≠ 0 ∧ (v = .light a ∨ ∃ slot u, v = .userdata slot ∧ m.heap.userdata? slot = some u ∧ m.target u = a)

theorem Proper.marked (h : m.Proper v) (hv : v = .userdata slot) : m.Marked v := by
  obtain ⟨u, mt, hu, hmt, hclass⟩ := h slot hv
  refine ⟨mt, ?_, hclass.marker⟩
  rw [hv, metatable?, hu]
  exact hmt

theorem behind_of_address? (hv : ∀ slot, v ≠ .userdata slot) (h : m'.address? v = some a) : m.Behind v a := by
  cases v with
  | object r =>
      obtain ⟨kind, slot⟩ := r
      cases kind with
      | userdata => exact absurd rfl (hv slot)
      | table | function | boxed => cases h
  | light b =>
      rw [address?] at h
      split at h
      · cases h
      · rename_i hne
        obtain rfl := Option.some.inj h
        exact ⟨hne, .inl rfl⟩
  | nil | bool | float | int | string | foreign => cases h

end Machine

namespace Act

variable {host : Host} {m : Machine} {v : Value} {i : StackIndex} {name : String}

/-- A function that leaves the heap alone is called for a truth. -/
theorem callTruth_ended {f n : Nat} {args : List Value} {fn : Closure Native} {R : Bool → Prop}
    (hhost : host.Lawful) (hm : m.Framed) (hguards : m.guards = []) (hf : m.heap.function? f = some fn)
    (hn : args.length = n)
    (hbody : Ended (fun n left => (m.inCall f args fn.body.origin).Passes left ∧
        ∃ found, left.result n = .bool found ∧ R found)
      (m.inCall f args fn.body.origin).Passes (host.enter fn.body.behaviour (m.inCall f args fn.body.origin))) :
    Ended (fun found m' => m.Back m' ∧ R found) m.Passes ((do
      call n 1
      popTruth : Act ScriptError Bool) host (m.pushCall f args)) := by
  have hcall := callAt_passes (R := fun v => ∃ found, v = .bool found ∧ R found) hhost hguards hf hbody
  rw [← call_pushCall hm hn 1] at hcall
  cases hrun : call n 1 host (m.pushCall f args) with
  | error e m' =>
      rw [hrun] at hcall
      rw [run_bind, hrun]
      exact hcall
  | ok u m' =>
      rw [hrun] at hcall
      obtain ⟨hpasses, hframes, v, hstack, found, rfl, hfound⟩ := hcall
      obtain ⟨m₁, rfl, hback⟩ := Back.of_push hpasses hstack hframes
      have hm₁ := hback.framed hm
      rw [bind_ok hrun, popTruth, run_bind, run_get]
      dsimp only
      rw [topValue_push hm₁, run_bind, run_modify]
      dsimp only
      rw [show (m₁.push (.bool found)).pop 1 = m₁ from pop_push hm₁]
      cases found <;> exact ⟨hback, hfound⟩

/-- The function that tells instances is called with what the index names once it lies on top. -/
theorem isInstance_asks (host : Host) (hm : m.Framed) (hready : m.Ready) (hi : m.absolute i = i) :
    ∃ cache g fn w, m.Passes { m with cache } ∧ m.heap.function? g = some fn ∧
      fn.body.behaviour = .code .classIsInstance ∧ ({ m with cache }.push (.function g)).value i = w ∧
      isInstance i host m = (do
        call 1 1
        popTruth : Act ScriptError Bool) host ({ m with cache }.pushCall g [w]) := by
  obtain ⟨cache, fv, hpush, hcode, hpasses⟩ := pushClassFunction_eq host hm hready
    (show .classIsInstance ∈ Class.codes by decide)
  obtain ⟨g, fn, rfl, hfn, hbehaviour⟩ := hcode.function
  refine ⟨cache, g, fn, _, hpasses, hfn, hbehaviour, rfl, ?_⟩
  rw [isInstance, run_bind, run_get]
  dsimp only
  rw [hi, bind_ok hpush, run_bind, run_modify]
  rfl

/-- The function that tells classes is called with the value at the index and the name. -/
theorem isType_asks (host : Host) (name : String) (hm : m.Framed) (hready : m.Ready) (hi : m.Pins i v) :
    ∃ m₁ id g fn, m.Back m₁ ∧ m₁.strings.strings[id]? = some (Utf8.encode name) ∧ m₁.heap.function? g = some fn ∧
      fn.body.behaviour = .code .classIsType ∧ isType i name host m = (do
        call 2 1
        popTruth : Act ScriptError Bool) host (m₁.pushCall g [v, .string id]) := by
  obtain ⟨cache, fv, hpush, hcode, hcached⟩ := pushClassFunction_eq host hm hready
    (show .classIsType ∈ Class.codes by decide)
  obtain ⟨g, fn, rfl, hfn, hbehaviour⟩ := hcode.function
  let id := (m.intern (Utf8.encode name)).1
  let m₁ : Machine := ({ m with cache }.intern (Utf8.encode name)).2
  have hpushed : (({ m with cache }.push (.function g)).pushAt i).pushText name = m₁.pushCall g [v, .string id] := by
    have hv : ({ m with cache }.push (.function g)).value i = v :=
      hi.value _ (hcached.trans .push) rfl (by simp [push])
    rw [pushAt_of_value hv]
    rfl
  refine ⟨m₁, id, g, fn, ⟨hcached.trans (.intern _), rfl, rfl⟩, StringPool.intern_found, hfn, hbehaviour, ?_⟩
  rw [isType, run_bind, run_get]
  dsimp only
  rw [hi.absolute, bind_ok hpush, run_bind, run_modify]
  dsimp only
  rw [run_bind, run_modify]
  dsimp only
  rw [hpushed]

variable {programs : Programs} {k : Nat}

/-- The question whether the value at an index is an instance of a class is asked about what the index names
    once the function lies on top. -/
theorem isInstance_asked (hm : m.Framed) (hguards : m.guards = []) (hready : m.Ready) (hi : m.absolute i = i) :
    Ended (fun found m' => m.Back m' ∧ ∃ cache g w, ({ m with cache }.push (.function g)).value i = w ∧
        m.Passes { m with cache } ∧ (found = true → ∃ slot, w = .userdata slot) ∧
        ∀ slot, w = .userdata slot → m.Marked w → found = true)
      m.Passes (isInstance i (programs.host (k + 1)) m) := by
  obtain ⟨cache, g, fn, w, hpasses, hfn, hbehaviour, hw, hasks⟩ :=
    isInstance_asks (programs.host (k + 1)) hm hready hi
  let m₁ : Machine := { m with cache }
  have hback : m.Back m₁ := ⟨hpasses, rfl, rfl⟩
  have hinside : m₁.Passes (m₁.inCall g [w] fn.body.origin) := .inCall
  have hended := callTruth_ended (n := 1) (R := fun found => (found = true → ∃ slot, w = .userdata slot) ∧
      ∀ slot, w = .userdata slot → m.Marked w → found = true)
    (Programs.host_lawful (k + 1)) (show m₁.Framed from hm) (show m₁.guards = [] from hguards) hfn rfl (by
      rw [hbehaviour]
      refine (classIsInstance_ended (programs.host k) framed_inCall
        ((hpasses.trans hinside).ready hready).strings value_inCall).imp ?_ fun _ hleft => hleft
      rintro n left ⟨hleft, found, hresult, htrue, hmarked⟩
      exact ⟨hleft, found, hresult, htrue, fun slot heq hclass =>
        hmarked slot heq (hclass.passes (hpasses.trans hinside))⟩)
  rw [hasks]
  refine hended.imp ?_ fun _ h => hpasses.trans h
  rintro found m' ⟨h, hfound⟩
  exact ⟨hback.trans h, cache, g, w, hw, hpasses, hfound⟩

/-- Whether the value at an index is an instance of a class. -/
theorem isInstance_ended (hm : m.Framed) (hguards : m.guards = []) (hready : m.Ready) (hi : m.Pins i v) :
    Ended (fun found m' => m.Back m' ∧ (found = true → ∃ slot, v = .userdata slot) ∧
        ∀ slot, v = .userdata slot → m.Marked v → found = true)
      m.Passes (isInstance i (programs.host (k + 1)) m) := by
  refine (isInstance_asked hm hguards hready (hi.absolute m)).imp ?_ fun _ h => h
  rintro found m' ⟨hback, cache, g, w, hw, hpasses, hfound⟩
  obtain rfl : v = w := (hi.value _ (hpasses.trans .push) rfl (by simp [push])).symm.trans hw
  exact ⟨hback, hfound⟩

/-- The arguments of the function that tells classes. -/
theorem arguments_isType (m : Machine) (g : Nat) (v : Value) (id : StringId) (o : Origin) :
    (m.inCall g [v, .string id] o).value (.argument 1) = v ∧
      (m.inCall g [v, .string id] o).value (.argument 2) = .string id := by
  have hl : Laid (m.stack.toList.length + 1) (m.stack.toList ++ .function g :: v :: [.string id])
      (m.inCall g [v, .string id] o) := by
    rw [Array.length_toList]
    exact laid_inCall
  exact hl.arguments

/-- Whether the value at an index is an instance of the class of a name. -/
theorem isType_ended (hm : m.Framed) (hguards : m.guards = []) (hready : m.Ready) (hi : m.Pins i v) :
    Ended (fun found m' => m.Back m' ∧
        ∀ mt, m.metatable? v = some mt → m.SharedClass mt → name = BoundType.shared.typeName → found = false)
      m.Passes (isType i name (programs.host (k + 1)) m) := by
  obtain ⟨m₁, id, g, fn, hback, hid, hfn, hbehaviour, hasks⟩ :=
    isType_asks (programs.host (k + 1)) name hm hready hi
  have hinside : m₁.Passes (m₁.inCall g [v, .string id] fn.body.origin) := .inCall
  have hended := callTruth_ended (n := 2) (R := fun found =>
      ∀ mt, m.metatable? v = some mt → m.SharedClass mt → name = BoundType.shared.typeName → found = false)
    (Programs.host_lawful (k + 1)) (hback.framed hm) (hback.passes.guards hguards) hfn rfl (by
      rw [hbehaviour]
      obtain ⟨hfirst, hsecond⟩ := arguments_isType m₁ g v id fn.body.origin
      have hname : (m₁.inCall g [v, .string id] fn.body.origin).IsTextOf
          ((m₁.inCall g [v, .string id] fn.body.origin).value (.argument 2)) name :=
        ⟨id, hsecond, hinside.strings id _ hid⟩
      refine (classIsType_ended (programs.host k) framed_inCall ((hback.passes.trans hinside).ready hready).strings
        hfirst hname).imp ?_ fun _ hleft => hleft
      rintro n left ⟨hleft, found, hresult, hfound⟩
      exact ⟨hleft, found, hresult, fun mt hmt hclass => hfound mt
        (metatable?_passes (hback.passes.trans hinside) ▸ hmt) (hclass.passes (hback.passes.trans hinside))⟩)
  rw [hasks]
  refine hended.imp ?_ fun _ h => hback.passes.trans h
  rintro found m' ⟨h, hfound⟩
  exact ⟨hback.trans h, hfound⟩

/-- The object behind a handle or a boxed instance is found without a trace, or the search fails. -/
theorem objectAt_ended (hm : m.Framed) (hguards : m.guards = []) (hready : m.Ready) (hi : m.Pins i v)
    (hv : m.Proper v) : Ended (fun a m' => m.Back m' ∧ m.Behind v a) m.Passes
      (objectAt .shared i (programs.host (k + 1)) m) := by
  rw [objectAt, run_bind, run_get]
  dsimp only
  rw [hi.absolute]
  refine (isInstance_ended hm hguards hready hi).next ?_ fun _ h => h
  rintro found m₁ ⟨hback, htrue, hmarked⟩
  have hvalue : m₁.value i = v := (hback.pins hi).self
  cases found with
  | false =>
      have hother : ∀ slot, v ≠ .userdata slot := fun slot heq =>
        Bool.false_ne_true (hmarked slot heq (hv.marked heq))
      rw [if_neg Bool.false_ne_true]
      change Ended _ _ (Op.blockAt i m₁)
      cases haddress : m₁.address? v with
      | none =>
          obtain ⟨e, hfail⟩ := Op.blockAt_error (show m₁.address? (m₁.value i) = none by rw [hvalue, haddress])
          rw [hfail]
          exact hback.passes
      | some a =>
          rw [Op.blockAt_eq (show m₁.address? (m₁.value i) = some a by rw [hvalue, haddress])]
          exact ⟨hback, behind_of_address? hother haddress⟩
  | true =>
      obtain ⟨slot, rfl⟩ := htrue rfl
      obtain ⟨u, mt, hu, hmt, hclass⟩ := hv slot rfl
      rw [if_pos rfl]
      refine (isType_ended (hback.framed hm) (hback.passes.guards hguards) (hback.passes.ready hready)
        (hback.pins hi)).next ?_ fun _ h => hback.passes.trans h
      rintro boxed m₂ ⟨hback₂, -⟩
      have hback₂ := hback.trans hback₂
      have haddress : m₂.address? (m₂.value i) = some u.address := by
        rw [(hback₂.pins hi).self, address?, hback₂.passes.heap, hu]
        rfl
      cases boxed with
      | true =>
          rw [if_pos rfl, bind_ok (run_lift.trans (Op.boxTarget_eq haddress)), hback₂.passes.heap]
          by_cases hnull : m.heap.memory.readPointer u.address = 0
          · rw [if_pos hnull]
            exact hback₂.passes
          · rw [if_neg hnull]
            exact ⟨hback₂, hnull, .inr ⟨slot, u, rfl, hu, rfl⟩⟩
      | false =>
          rw [if_neg Bool.false_ne_true]
          refine (isType_ended (hback₂.framed hm) (hback₂.passes.guards hguards) (hback₂.passes.ready hready)
            (hback₂.pins hi)).next ?_ fun _ h => hback₂.passes.trans h
          rintro inside m₃ ⟨hback₃, hother⟩
          have hmetatable : m₂.metatable? (.userdata slot) = some mt := by
            rw [metatable?_passes hback₂.passes, metatable?, hu]
            exact hmt
          obtain rfl : inside = false := hother mt hmetatable (hclass.passes hback₂.passes) rfl
          rw [if_neg Bool.false_ne_true]
          exact (hback₂.trans hback₃).passes

/-- There is nothing behind nil, also if the index names nothing until a function is pushed. -/
theorem objectAt_nil {n : Nat} (hm : m.Framed) (hguards : m.guards = []) (hready : m.Ready)
    (hv : m.value (.fromBottom n) = .nil) : Ended (fun _ _ => False) m.Passes
      (objectAt .shared (.fromBottom n) (programs.host (k + 1)) m) := by
  rw [objectAt, run_bind, run_get]
  dsimp only [absolute]
  refine (isInstance_asked hm hguards hready rfl).next ?_ fun _ h => h
  rintro found m₁ ⟨hback, cache, g, w, hw, -, htrue, -⟩
  have hother : ∀ slot, w ≠ .userdata slot := by
    rintro slot rfl
    rcases value_push { m with cache } (.function g) n with hsame | hsame
    · rw [hw, show ({ m with cache } : Machine).value (.fromBottom n) = .nil from hv] at hsame
      cases hsame
    · rw [hw] at hsame
      cases hsame
  obtain rfl : found = false := by
    cases found with
    | false => rfl
    | true =>
        obtain ⟨slot, hslot⟩ := htrue rfl
        exact absurd hslot (hother slot)
  obtain ⟨e, hfail⟩ := Op.blockAt_error (show m₁.address? (m₁.value (.fromBottom n)) = none by
    rw [hback.value, hv]
    rfl)
  rw [if_neg Bool.false_ne_true]
  change Ended _ _ (Op.blockAt (.fromBottom n) m₁)
  rw [hfail]
  exact hback.passes

/-- The object behind a value of the frame is found without a trace, or the search fails. -/
theorem objectAt_position {n : Nat} (hm : m.Framed) (hguards : m.guards = []) (hready : m.Ready)
    (hvalue : m.value (.fromBottom n) = v) (hv : m.Proper v) :
    Ended (fun a m' => m.Back m' ∧ m.Behind v a) m.Passes
      (objectAt .shared (.fromBottom n) (programs.host (k + 1)) m) := by
  by_cases hnil : v = .nil
  · exact (objectAt_nil hm hguards hready (hvalue.trans hnil)).imp (fun _ _ h => h.elim) fun _ h => h
  · exact objectAt_ended hm hguards hready (pins_position hvalue hnil) hv

end Act

end ScriptHost
