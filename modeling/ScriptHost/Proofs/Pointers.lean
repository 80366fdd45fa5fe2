import ScriptHost.Proofs.Definitions

/-! # Typed pointers

What lies behind a value as an object of a bound type is told by the class of the value: an instance of the class of
the type holds the object, an instance of its boxed class points to it, and a value of no class is taken for the object
or its address. The host asks functions of the class library for the class. In an equipped machine these tell every
class from every other, and nothing they do is left on the stack.
-/

namespace ScriptHost

open Machine

namespace Machine

variable {m m' : Machine} {l : Library} {classes : List String} {name : String} {t slot mt : Nat} {v : Value}
  {i : StackIndex}

/-! ## Classes of values -/

/-- The class of a value, among classes of some names: its metatable is registered under the name. -/
def classOf? (m : Machine) (classes : List String) : Value → Option String
  | .userdata slot => classes.find? fun name =>
      (m.metatable? (.userdata slot)).map Value.table = some (m.field m.registry name)
  | _ => none

/-- The address that lies behind a value as an object of a bound type. -/
def pointer? (m : Machine) (classes : List String) (t : BoundType) (v : Value) : Option Address :=
  match m.classOf? classes v with
  | none => m.address? v
  | some name =>
      if name = t.boxedName then
        ((m.address? v).map m.heap.memory.readPointer).filter (· ≠ 0)
      else if name = t.typeName then m.address? v
      else none

theorem classOf?_nil (m : Machine) (v : Value) : m.classOf? [] v = none := by
  unfold classOf?
  split <;> rfl

theorem pointer?_nil (m : Machine) (t : BoundType) (v : Value) : m.pointer? [] t v = m.address? v := by
  rw [pointer?, classOf?_nil]

namespace Equipped

/-- Tables are registered under the names of the classes, and no others. -/
theorem field_registry (h : m.Equipped l) : m.field m.registry name = .table t ↔ (name, t) ∈ l.classes := by
  rw [h.registry]
  constructor
  · intro hfield
    cases hfind : m.strings.find? (Utf8.encode name) with
    | none =>
        rw [field, hfind] at hfield
        cases hfield
    | some id =>
        have hid := (StringPool.find?_eq_some h.strings).mp hfind
        rw [field_eq h.strings hid] at hfield
        obtain ⟨c, hc, hget, hbytes⟩ := h.registered id fun hnil => by
          rw [hfield] at hnil
          cases hnil
        obtain rfl : t = c.2 := by
          rw [hfield] at hget
          cases hget
          rfl
        obtain rfl : name = c.1 := Utf8.encode_injective (Option.some.inj (hid.symm.trans hbytes))
        exact hc
  · intro hc
    obtain ⟨id, hid, hget⟩ := h.entered _ hc
    exact (field_eq h.strings hid _).trans hget

/-- Two classes do not share a metatable. -/
theorem class_inj {c c' : String × Nat} (hc : c ∈ l.classes) (hc' : c' ∈ l.classes) (heq : c.2 = c'.2) : c = c' := by
  have hdistinct : (l.classes.map Prod.snd).Nodup := (l.distinct.of_cons.of_cons).of_cons
  exact List.inj_on_of_nodup_map hdistinct hc hc' heq

/-- A userdata has the class whose metatable it has. -/
theorem classOf?_eq_some (h : m.Equipped l) : m.classOf? (l.classes.map Prod.fst) v = some name ↔
    ∃ slot mt, v = .userdata slot ∧ m.metatable? v = some mt ∧ (name, mt) ∈ l.classes := by
  have hsound : ∀ {name}, m.classOf? (l.classes.map Prod.fst) v = some name →
      ∃ slot mt, v = .userdata slot ∧ m.metatable? v = some mt ∧ (name, mt) ∈ l.classes := by
    intro name hclass
    unfold classOf? at hclass
    split at hclass
    · rename_i slot
      have hfound := List.find?_some hclass
      obtain ⟨mt, hmt, heq⟩ := Option.map_eq_some_iff.mp (of_decide_eq_true hfound)
      exact ⟨slot, mt, rfl, hmt, h.field_registry.mp heq.symm⟩
    · cases hclass
  refine ⟨hsound, ?_⟩
  rintro ⟨slot, mt, rfl, hmt, hc⟩
  have hname : (m.metatable? (.userdata slot)).map Value.table = some (m.field m.registry name) := by
    rw [hmt, h.field_registry.mpr hc]
    rfl
  have hsome : (m.classOf? (l.classes.map Prod.fst) (.userdata slot)).isSome = true :=
    List.find?_isSome.mpr ⟨name, List.mem_map_of_mem hc, decide_eq_true hname⟩
  -- No other class comes before it, as none has the same metatable.
  obtain ⟨other, hother⟩ := Option.isSome_iff_exists.mp hsome
  obtain ⟨-, mt', -, hmt', hc'⟩ := hsound hother
  obtain rfl : mt = mt' := Option.some.inj (hmt.symm.trans hmt')
  have heq : other = name := congrArg Prod.fst (class_inj hc' hc rfl)
  rw [hother, heq]

/-- The class of a value is that of before. -/
theorem classOf?_passes (h : m.Equipped l) (hpasses : m.Passes m') :
    m'.classOf? (l.classes.map Prod.fst) v = m.classOf? (l.classes.map Prod.fst) v := by
  refine Option.ext fun name => ?_
  rw [(h.passes hpasses).classOf?_eq_some, h.classOf?_eq_some, metatable?_passes hpasses]

theorem userdata_class (h : m.Equipped l) (hmt : m.metatable? (.userdata slot) = some mt) :
    ∃ c ∈ l.classes, mt = c.2 := by
  obtain ⟨u, hu, hmeta⟩ := Option.bind_eq_some_iff.mp hmt
  rcases h.instances hu with hnone | ⟨c, hc, heq⟩
  · rw [hnone] at hmeta
    cases hmeta
  · exact ⟨c, hc, Option.some.inj (hmeta.symm.trans heq)⟩

theorem marked_class {c : String × Nat} (h : m.Equipped l) (hc : c ∈ l.classes) (hmt : m.metatable? v = some c.2) :
    m.Marked v := by
  obtain ⟨b, id, hid, hget⟩ := h.marked c hc
  exact ⟨c.2, hmt, id, hid, by rw [hget]; rfl⟩

end Equipped

/-- There is room for another call, of a function with so many arguments. -/
structure Admits (m : Machine) (count : Nat) : Prop where
  calls : m.depth < m.limits.callDepth
  slots : m.stack.size + count + 1 ≤ m.limits.stackSlots

theorem Admits.back {count : Nat} (h : m.Admits count) (hback : m.Back m') : m'.Admits count := by
  refine ⟨?_, ?_⟩
  · rw [Machine.depth, hback.frames, hback.passes.limits]
    exact h.calls
  · rw [hback.stack, hback.passes.limits]
    exact h.slots

end Machine

/-! ## Asking for a class -/

namespace Act

variable {host : Host} {m : Machine} {l : Library} {v : Value} {i : StackIndex}

/-- A function that leaves the heap alone is called for a truth, and there is room for the call. -/
theorem callTruth_answered {f n : Nat} {args : List Value} {fn : Closure Native} {left : Machine} {found : Bool}
    (hhost : host.Lawful) (hm : m.Framed) (hguards : m.guards = []) (hroom : m.Admits n)
    (hf : m.heap.function? f = some fn) (hn : args.length = n)
    (hrun : host.enter fn.body.behaviour (m.inCall f args fn.body.origin) = .ok 1 left)
    (hleft : (m.inCall f args fn.body.origin).Passes left) (hresult : left.result 1 = .bool found) :
    ∃ m', (do
      call n 1
      popTruth : Act ScriptError Bool) host (m.pushCall f args) = .ok found m' ∧ m.Back m' := by
  have hended := callTruth_ended (R := fun answer => answer = found) hhost hm hguards hf hn (by
    rw [hrun]
    exact ⟨hleft, found, hresult, rfl⟩)
  obtain ⟨m₁, hcall, -⟩ := callAt_answered hhost (atLimit_pushCall hroom.calls (hn ▸ hroom.slots)) hf hrun
    ((Passes.inCall (m := m)).trans hleft).closed
  have hcalled : call n 1 host (m.pushCall f args) = .ok () m₁ := (call_pushCall hm hn 1).trans hcall
  have htruth : (do
      call n 1
      popTruth : Act ScriptError Bool) host (m.pushCall f args) = .ok m₁.topValue.isTruthy (m₁.pop 1) := by
    rw [bind_ok hcalled]
    rfl
  rw [htruth] at hended ⊢
  obtain ⟨hback, rfl⟩ := hended
  exact ⟨_, rfl, hback⟩

/-- Exactly the instances of the classes are told to be instances. -/
theorem isInstance_answers (programs : Programs) (k : Nat) (hm : m.Framed) (hguards : m.guards = [])
    (h : m.Equipped l) (hroom : m.Admits 1) (hi : m.Pins i v) : ∃ m', isInstance i (programs.host (k + 1)) m =
      .ok (m.classOf? (l.classes.map Prod.fst) v).isSome m' ∧ m.Back m' := by
  obtain ⟨cache, g, fn, w, hpasses, hfn, hbehaviour, hw, hasks⟩ :=
    isInstance_asks (programs.host (k + 1)) hm h.ready (hi.absolute m)
  obtain rfl : v = w := (hi.value _ (hpasses.trans .push) rfl (by simp [push])).symm.trans hw
  let m₁ : Machine := { m with cache }
  have hback : m.Back m₁ := ⟨hpasses, rfl, rfl⟩
  let inside := m₁.inCall g [v] fn.body.origin
  have hinside : m.Passes inside := hpasses.trans .inCall
  obtain ⟨left, found, hrun, hleft, hresult, htrue, hmarked⟩ := classIsInstance_eq (programs.host k)
    (m := inside) framed_inCall (h.passes hinside).strings value_inCall
  have hfound : found = (m.classOf? (l.classes.map Prod.fst) v).isSome := by
    rw [Bool.eq_iff_iff, Option.isSome_iff_exists]
    constructor
    · intro hfound
      obtain ⟨slot, mt, rfl, hmt⟩ := htrue hfound
      rw [metatable?_passes hinside] at hmt
      obtain ⟨c, hc, rfl⟩ := h.userdata_class hmt
      exact ⟨c.1, h.classOf?_eq_some.mpr ⟨slot, c.2, rfl, hmt, hc⟩⟩
    · rintro ⟨name, hname⟩
      obtain ⟨slot, mt, rfl, hmt, hc⟩ := h.classOf?_eq_some.mp hname
      exact hmarked slot rfl ((h.marked_class hc hmt).passes hinside)
  have henter : (programs.host (k + 1)).enter fn.body.behaviour inside = .ok 1 left := by
    rw [hbehaviour]
    exact hrun
  obtain ⟨m', hcall, hend⟩ := callTruth_answered (n := 1) (Programs.host_lawful (k + 1)) (m := m₁) hm hguards
    ⟨hroom.calls, hroom.slots⟩ hfn rfl henter hleft hresult
  exact ⟨m', by rw [hasks, ← hfound, hcall], hback.trans hend⟩

/-- Exactly the instances of a class are told to be of it. -/
theorem isType_answers (programs : Programs) (k : Nat) (name : String) (hm : m.Framed) (hguards : m.guards = [])
    (h : m.Equipped l) (hroom : m.Admits 2) (hi : m.Pins i v) : ∃ m', isType i name (programs.host (k + 1)) m =
      .ok (decide (m.classOf? (l.classes.map Prod.fst) v = some name)) m' ∧ m.Back m' := by
  obtain ⟨m₁, id, g, fn, hback, hid, hfn, hbehaviour, hasks⟩ :=
    isType_asks (programs.host (k + 1)) name hm h.ready hi
  let inside := m₁.inCall g [v, .string id] fn.body.origin
  have hcalled : m₁.Passes inside := .inCall
  have hinside : m.Passes inside := hback.passes.trans hcalled
  have hequipped : inside.Equipped l := h.passes hinside
  obtain ⟨hfirst, hsecond⟩ := arguments_isType m₁ g v id fn.body.origin
  have hknown : inside.strings.strings[id]? = some (Utf8.encode name) := hcalled.strings id _ hid
  obtain ⟨left, found, hrun, hleft, hresult, htrue, hregistered⟩ := classIsType_eq (programs.host k)
    (m := inside) framed_inCall hequipped.strings hfirst hsecond hknown
  have hentry : ∀ mt, (inside.heap.table inside.registry).get (.string id) = .table mt ↔ (name, mt) ∈ l.classes :=
    fun mt => by rw [← field_eq hequipped.strings hknown, hequipped.field_registry]
  have hfound : found = decide (m.classOf? (l.classes.map Prod.fst) v = some name) := by
    rw [Bool.eq_iff_iff, decide_eq_true_iff, h.classOf?_eq_some]
    constructor
    · intro hfound
      obtain ⟨slot, mt, hv, hmt, hget⟩ := htrue hfound
      exact ⟨slot, mt, hv, metatable?_passes hinside ▸ hmt, (hentry mt).mp hget⟩
    · rintro ⟨slot, mt, hv, hmt, hc⟩
      exact hregistered slot mt hv ((h.marked_class hc hmt).passes hinside)
        ((metatable?_passes hinside).trans hmt) ((hentry mt).mpr hc)
  have henter : (programs.host (k + 1)).enter fn.body.behaviour inside = .ok 1 left := by
    rw [hbehaviour]
    exact hrun
  obtain ⟨m', hcall, hend⟩ := callTruth_answered (n := 2) (Programs.host_lawful (k + 1)) (hback.framed hm)
    (hback.passes.guards hguards) (hroom.back hback) hfn rfl henter hleft hresult
  exact ⟨m', by rw [hasks, ← hfound, hcall], hback.trans hend⟩

/-! ## What lies behind a value -/

/-- The block or handle at an index is found where it is, or there is none. -/
theorem blockAt_back (host : Host) {m' : Machine} (hi : m.Pins i v) (hback : m.Back m') :
    Ended (fun a left => m.Back left ∧ m.address? v = some a) (fun left => m.Back left ∧ m.address? v = none)
      ((liftM (Op.blockAt i) : Act ScriptError Address) host m') := by
  have haddress : m'.address? (m'.value i) = m.address? v := by
    rw [(hback.pins hi).self, address?_passes hback.passes]
  rw [run_lift]
  cases hv : m.address? v with
  | some a =>
      rw [Op.blockAt_eq (haddress.trans hv)]
      exact ⟨hback, rfl⟩
  | none =>
      obtain ⟨e, hfail⟩ := Op.blockAt_error (haddress.trans hv)
      rw [hfail]
      exact ⟨hback, rfl⟩

/-- The pointer in the block at an index is found unless it is null. -/
theorem boxTarget_back (host : Host) {m' : Machine} (t : BoundType) (hi : m.Pins i v) (hback : m.Back m') :
    Ended (fun a left => m.Back left ∧ ((m.address? v).map m.heap.memory.readPointer).filter (· ≠ 0) = some a)
      (fun left => m.Back left ∧ ((m.address? v).map m.heap.memory.readPointer).filter (· ≠ 0) = none)
      ((do
        let target ← Op.boxTarget i
        if target = 0 then fail (.handleIsNull t.boxedName) else pure target : Act ScriptError Address) host m') := by
  have haddress : m'.address? (m'.value i) = m.address? v := by
    rw [(hback.pins hi).self, address?_passes hback.passes]
  cases hv : m.address? v with
  | none =>
      obtain ⟨e, hfail⟩ := Op.blockAt_error (haddress.trans hv)
      have hnone : Op.boxTarget i m' = .error e m' := by rw [Op.boxTarget, Op.bind_error hfail]
      rw [run_bind, run_lift, hnone]
      exact ⟨hback, rfl⟩
  | some block =>
      rw [bind_ok (run_lift.trans (Op.boxTarget_eq (haddress.trans hv))), hback.passes.heap]
      by_cases hnull : m.heap.memory.readPointer block = 0
      · rw [if_pos hnull]
        exact ⟨hback, by simp [hnull]⟩
      · rw [if_neg hnull]
        exact ⟨hback, by simp [hnull]⟩

/-- What the host finds behind a value is told by the class of the value, and the frame is back as it was. -/
theorem objectAt_equipped (programs : Programs) (k : Nat) (t : BoundType) (hm : m.Framed) (hguards : m.guards = [])
    (h : m.Equipped l) (hroom : m.Admits 2) (hi : m.Pins (m.absolute i) v) :
    Ended (fun a m' => m.Back m' ∧ m.pointer? (l.classes.map Prod.fst) t v = some a)
      (fun m' => m.Back m' ∧ m.pointer? (l.classes.map Prod.fst) t v = none)
      (objectAt t i (programs.host (k + 1)) m) := by
  -- Each question finds the frame as it was, and the class of the value too.
  have hasked : ∀ {m' : Machine} (name : String), m.Back m' → ∃ m'',
      isType (m.absolute i) name (programs.host (k + 1)) m' =
        .ok (decide (m.classOf? (l.classes.map Prod.fst) v = some name)) m'' ∧ m.Back m'' := by
    intro m' name hback
    obtain ⟨m'', hrun, hback'⟩ := isType_answers programs k name (hback.framed hm)
      (hback.passes.guards hguards) (h.passes hback.passes) (hroom.back hback) (hback.pins hi)
    rw [h.classOf?_passes hback.passes] at hrun
    exact ⟨m'', hrun, hback.trans hback'⟩
  obtain ⟨m₁, hinstance, hback₁⟩ := isInstance_answers programs k hm hguards h
    ⟨hroom.calls, Nat.le_of_succ_le hroom.slots⟩ hi
  rw [objectAt, run_bind, run_get]
  dsimp only
  rw [bind_ok hinstance, pointer?]
  cases hclass : m.classOf? (l.classes.map Prod.fst) v with
  | none =>
      rw [if_neg (by decide)]
      exact blockAt_back _ hi hback₁
  | some name =>
      obtain ⟨m₂, hboxed, hback₂⟩ := hasked t.boxedName hback₁
      dsimp only
      rw [if_pos Option.isSome_some, bind_ok hboxed, hclass]
      by_cases hname : name = t.boxedName
      · rw [if_pos hname, if_pos (decide_eq_true (congrArg some hname))]
        exact boxTarget_back _ t hi hback₂
      · obtain ⟨m₃, htyped, hback₃⟩ := hasked t.typeName hback₂
        rw [if_neg hname, decide_eq_false fun heq => hname (Option.some.inj heq), if_neg Bool.false_ne_true,
          bind_ok htyped, hclass]
        by_cases hname' : name = t.typeName
        · rw [if_pos hname', if_pos (decide_eq_true (congrArg some hname'))]
          exact blockAt_back _ hi hback₃
        · rw [if_neg hname', decide_eq_false fun heq => hname' (Option.some.inj heq), if_neg Bool.false_ne_true]
          exact ⟨hback₃, rfl⟩

end Act

/-! ## Valid indices -/

namespace Machine

variable {m m' : Machine} {i : StackIndex} {slot : Nat}

theorem framed_idle (hframes : m.frames = []) : m.Framed := by
  rw [Framed, base, hframes]
  exact Nat.zero_le _

theorem upvalue?_idle (hframes : m.frames = []) (n : Nat) : m.upvalue? n = none := by
  unfold upvalue? runningFunction?
  rw [hframes]
  exact ite_self none

theorem value_upvalue_idle (hframes : m.frames = []) (n : Nat) : m.value (.upvalue n) = .nil := by
  rw [value, upvalue?_idle hframes]
  rfl

/-- Where no function runs, a valid index goes on naming its value once it is absolute. -/
theorem pins_valid (hframes : m.frames = []) (hi : m.isValid i = true) : m.Pins (m.absolute i) (m.value i) := by
  cases i with
  | registry => exact pins_pseudo (.inl rfl)
  | environment => exact pins_pseudo (.inr rfl)
  | upvalue n =>
      refine ⟨fun _ => rfl, fun m' _ hframes' _ => ?_⟩
      rw [value_upvalue_idle hframes]
      exact value_upvalue_idle (hframes'.trans hframes) n
  | fromBottom n =>
      refine pins_inside (Classical.byContradiction fun hin => ?_)
      rw [isValid, position?, if_neg hin] at hi
      cases hi
  | fromTop n =>
      have hin : 1 ≤ n ∧ n ≤ m.top := Classical.byContradiction fun hin => by
        rw [isValid, position?, if_neg hin] at hi
        cases hi
      have habsolute : m.absolute (.fromTop n) = .fromBottom (m.top + 1 - n) := if_pos hin.2
      rw [← value_absolute, habsolute]
      refine pins_inside ?_
      unfold top at hin ⊢
      omega

theorem value_mem (hv : m.value i = .userdata slot) (hframes : m.frames = []) : .userdata slot ∈ m.stack.toList := by
  have hlies : ∀ i, ((m.position? i).bind fun p => m.stack[p]?).getD .nil = .userdata slot →
      .userdata slot ∈ m.stack.toList := by
    intro i h
    cases hp : m.position? i with
    | none =>
        rw [hp] at h
        cases h
    | some p =>
        rw [hp, Option.bind_some] at h
        cases hat : m.stack[p]? with
        | none =>
            rw [hat] at h
            cases h
        | some w =>
            rw [hat] at h
            obtain rfl : w = .userdata slot := h
            exact Array.mem_toList_iff.mpr (Array.mem_of_getElem? hat)
  cases i with
  | registry | environment => cases hv
  | upvalue n =>
      rw [value_upvalue_idle hframes] at hv
      cases hv
  | fromBottom n => exact hlies _ hv
  | fromTop n => exact hlies _ hv

namespace Level

theorem position? (h : Level m m') (i : StackIndex) : m'.position? i = m.position? i := by
  have hbase : m'.base = m.base := by rw [base, base, h.frames]
  unfold Machine.position? top
  rw [hbase, h.stack]

theorem absolute (h : Level m m') (i : StackIndex) : m'.absolute i = m.absolute i := by
  have hbase : m'.base = m.base := by rw [base, base, h.frames]
  unfold Machine.absolute top
  rw [hbase, h.stack]

theorem isValid (h : Level m m') (i : StackIndex) : m'.isValid i = m.isValid i := by
  rw [Machine.isValid, h.position?, Machine.isValid]

theorem admits {count : Nat} (h : Level m m') (hroom : m.Admits count) : m'.Admits count := by
  refine ⟨?_, ?_⟩
  · rw [depth, h.frames, h.limits]
    exact hroom.calls
  · rw [h.stack, h.limits]
    exact hroom.slots

/-- The blocks of the userdata on the stack are where they were. -/
theorem address? (h : Level m m') (hframes : m.frames = []) (hsame : SameUserdata m.stack.toList m m')
    (i : StackIndex) : m'.address? (m'.value i) = m.address? (m.value i) := by
  have hposition : ∀ i, m.value i = ((m.position? i).bind fun p => m.stack[p]?).getD .nil →
      m'.value i = ((m'.position? i).bind fun p => m'.stack[p]?).getD .nil →
      m'.address? (m'.value i) = m.address? (m.value i) := by
    intro i hi hi'
    rw [h.position?, h.stack, ← hi] at hi'
    rw [hi']
    cases hv : m.value i with
    | object r =>
        obtain ⟨kind, slot⟩ := r
        cases kind with
        | userdata => exact congrArg (Option.map _) (hsame slot (value_mem hv hframes))
        | table | function | boxed => rfl
    | nil | bool | float | int | string | light | foreign => rfl
  cases i with
  | registry | environment => rfl
  | upvalue n => rw [value_upvalue_idle hframes, value_upvalue_idle (h.frames.trans hframes)]; rfl
  | fromBottom n => exact hposition _ rfl rfl
  | fromTop n => exact hposition _ rfl rfl

end Level

end Machine

namespace Act

variable {m : Machine} {i : StackIndex}

/-- Where nothing is set up, the library is installed when its first function is looked up. Nothing has a class. -/
theorem objectAt_bare (programs : Programs) (k : Nat) (t : BoundType) (hframes : m.frames = [])
    (hguards : m.guards = []) (h : m.Bare) (hroom : m.Admits 2) (hi : m.isValid i = true) :
    Ended (fun a m' => Level m m' ∧ m.pointer? [] t (m.value i) = some a)
      (fun m' => Level m m' ∧ m.pointer? [] t (m.value i) = none)
      (objectAt t i (programs.host (k + 1)) m) := by
  have hm := framed_idle hframes
  have hhost : (programs.host (k + 1)).Lawful := Programs.host_lawful _
  obtain ⟨l, m', hclasses, h', hlevel, hsame, hpush⟩ := pushClassFunction_bare hhost hm h
  have hframes' := hlevel.frames.trans hframes
  have hm' := framed_idle hframes'
  have hinstance : ∀ j, isInstance j (programs.host (k + 1)) m = isInstance j (programs.host (k + 1)) m' := by
    intro j
    simp only [isInstance, run_bind, run_get, hlevel.absolute, hpush .classIsInstance (by decide)]
  have hobject : objectAt t i (programs.host (k + 1)) m = objectAt t i (programs.host (k + 1)) m' := by
    simp only [objectAt, run_bind, run_get, hlevel.absolute, hinstance]
  have hended := objectAt_equipped programs k t hm' (hlevel.guards hguards) h'
    (hlevel.admits hroom) (pins_valid hframes' ((hlevel.isValid i).trans hi))
  rw [hclasses, List.map_nil, pointer?_nil, hlevel.address? hframes hsame] at hended
  rw [hobject, pointer?_nil]
  have hback : ∀ {m''}, m'.Back m'' → Level m m'' := fun hback =>
    ⟨hback.stack.trans hlevel.stack, hback.frames.trans hlevel.frames,
      fun hnone => hback.passes.guards (hlevel.guards hnone), hback.passes.limits.trans hlevel.limits⟩
  exact hended.imp (fun a _ hok => ⟨hback hok.1, hok.2⟩) fun _ herror => ⟨hback herror.1, herror.2⟩

end Act

/-! ## States in which classes were defined -/

namespace Machine

variable {programs : Programs} {classes : List String} {m m' : Machine} {i : StackIndex}

/-- Classes of some names were defined, each with a name of its own and no method called like the mark of classes.
    Instances may have been made, and whatever else was done left the tables of the library alone. -/
inductive Populated (programs : Programs) : List String → Machine → Prop
  | create (limits : Limits) : Populated programs [] (Machine.create limits)
  | define {classes : List String} {m : Machine} (d : ClassDef) (k : Nat) (hm : Populated programs classes m)
      (hname : d.name ∉ classes) (hmethods : ∀ f ∈ d.methods, f.1 ≠ Class.markerField) :
      Populated programs (d.name :: classes) (Op.after (Act.defineClass d (programs.host k)) m)
  | newInstance {classes : List String} {m : Machine} (name : String) (ds : List Directive) (args : List Argument)
      (k : Nat) (hm : Populated programs classes m) :
      Populated programs classes (Op.after (Act.newInstance name ds args (programs.host k)) m)
  | aside {classes : List String} {m m' : Machine} (hm : Populated programs classes m) (hframes : m'.frames = [])
      (hguards : m'.guards = []) (hbare : m.Bare → m'.Bare) (hequipped : ∀ l, m.Equipped l → m'.Equipped l) :
      Populated programs classes m'

/-- No function runs, and the library has the classes of some names, or nothing is set up yet. -/
structure Settled (classes : List String) (m : Machine) : Prop where
  frames : m.frames = []
  guards : m.guards = []
  library : classes = [] ∧ m.Bare ∨ ∃ l, m.Equipped l ∧ l.classes.map Prod.fst = classes

namespace Settled

theorem framed (h : m.Settled classes) : m.Framed := framed_idle h.frames

theorem create (limits : Limits) : (Machine.create limits).Settled [] := ⟨rfl, rfl, .inl ⟨rfl, bare_create limits⟩⟩

theorem of_level {m₁ : Machine} (h : m.Settled classes) (hlevel : Level m m₁) {l : Library} (hequipped : m₁.Equipped l)
    (hclasses : l.classes.map Prod.fst = classes) : m₁.Settled classes :=
  ⟨hlevel.frames.trans h.frames, hlevel.guards h.guards, .inr ⟨l, hequipped, hclasses⟩⟩

/-- The library is installed when a class is defined. -/
theorem installed (hprograms : ∀ l, programs.Keep l) (h : m.Settled classes) (k : Nat) : ∃ l m₁,
    Act.installClasses (programs.host k) m = .ok () m₁ ∧ Laid m.base m.stack.toList m₁ ∧ m₁.Equipped l ∧
      l.classes.map Prod.fst = classes := by
  rcases h.library with ⟨rfl, hbare⟩ | ⟨l, hequipped, hclasses⟩
  · obtain ⟨l, m₁, hclasses, hrun, hl, hequipped, -⟩ :=
      Act.installClasses_bare (Programs.host_lawful k) h.framed hbare
    exact ⟨l, m₁, hrun, hl, hequipped, by rw [hclasses]; rfl⟩
  · obtain ⟨m₁, hrun, hl, hequipped⟩ :=
      Act.installClasses_equipped (Programs.host_keeps (hprograms l) k) h.framed hequipped
    exact ⟨l, m₁, hrun, hl, hequipped, hclasses⟩

/-- A definition adds its class and leaves the frame as it was. -/
theorem define {d : ClassDef} (hprograms : ∀ l, programs.Keep l) (h : m.Settled classes) (k : Nat)
    (hname : d.name ∉ classes) (hmethods : ∀ f ∈ d.methods, f.1 ≠ Class.markerField) : ∃ m',
      Act.defineClass d (programs.host k) m = .ok () m' ∧ m'.Settled (d.name :: classes) ∧ Level m m' := by
  have hhost : (programs.host k).Lawful := Programs.host_lawful k
  obtain ⟨l, m₁, hinstall, hl, h₁, rfl⟩ := h.installed hprograms k
  obtain ⟨t, ht, m', hrun, h', hl'⟩ := Act.defineClass_installed (fun l => Programs.host_keeps (hprograms l) k)
    hinstall ((Act.installClasses_lawful.run_ok hhost h.framed hinstall).framed h.framed) h₁ hl hname hmethods
  have hclosed : m'.closed = m.closed := by
    rw [h'.opened]
    rcases h.library with ⟨-, hbare⟩ | ⟨l, hequipped, -⟩
    · exact hbare.opened.symm
    · exact hequipped.opened.symm
  have hlevel := (Act.defineClass_lawful d).level hhost h.framed hrun hclosed hl'
  exact ⟨m', hrun, ⟨hlevel.frames.trans h.frames, hlevel.guards h.guards, .inr ⟨_, h', rfl⟩⟩, hlevel⟩

/-- An attempt to make an instance leaves the classes as they were. -/
theorem newInstance (hprograms : ∀ l, programs.Keep l) (h : m.Settled classes) (name : String) (ds : List Directive)
    (args : List Argument) (k : Nat) :
    (Op.after (Act.newInstance name ds args (programs.host k)) m).Settled classes := by
  have hhost : (programs.host k).Lawful := Programs.host_lawful k
  have houtside : (Op.after (Act.newInstance name ds args (programs.host k)) m).frames = [] ∧
      (Op.after (Act.newInstance name ds args (programs.host k)) m).guards = [] := by
    cases (Act.newInstance_lawful name ds args _ hhost m h.framed).preserved h.framed with
    | isolated hisolated =>
        have hhandlers := hisolated.handlers
        rw [h.guards] at hhandlers
        exact ⟨hisolated.frames.trans h.frames, List.map_eq_nil_iff.mp hhandlers⟩
    | closed hclosed => exact ⟨hclosed.frames, hclosed.guards⟩
  refine ⟨houtside.1, houtside.2, .inr ?_⟩
  have hkeeps : ∀ {m l}, m.Framed → m.Equipped l →
      (Op.after (Act.newInstance name ds args (programs.host k)) m).Equipped l := fun hm hequipped =>
      (Act.newInstance_keeps name ds args).keeps (Programs.host_keeps (hprograms _) k) hm hequipped trivial
  rcases h.library with ⟨rfl, hbare⟩ | ⟨l, hequipped, hclasses⟩
  · obtain ⟨l, m₁, hclasses, h₁, hlevel, -, hpush⟩ := Act.pushClassFunction_bare hhost h.framed hbare
    have hrun : Act.newInstance name ds args (programs.host k) m =
        Act.newInstance name ds args (programs.host k) m₁ := by
      simp only [Act.newInstance, Act.run_bind, hpush .classNew (by decide)]
    refine ⟨l, ?_, by rw [hclasses]; rfl⟩
    unfold Op.after
    rw [hrun]
    exact hkeeps (h.of_level hlevel h₁ (by rw [hclasses]; rfl)).framed h₁
  · exact ⟨l, hkeeps h.framed hequipped, hclasses⟩

/-- What was done aside. -/
theorem aside (h : m.Settled classes) (hframes : m'.frames = []) (hguards : m'.guards = [])
    (hbare : m.Bare → m'.Bare) (hequipped : ∀ l, m.Equipped l → m'.Equipped l) : m'.Settled classes := by
  refine ⟨hframes, hguards, ?_⟩
  rcases h.library with ⟨rfl, hempty⟩ | ⟨l, hl, hclasses⟩
  · exact .inl ⟨rfl, hbare hempty⟩
  · exact .inr ⟨l, hequipped l hl, hclasses⟩

end Settled

/-- Definitions, instances and what is done aside keep the library settled. -/
theorem Populated.settled (hprograms : ∀ l, programs.Keep l) (h : Populated programs classes m) :
    m.Settled classes := by
  induction h with
  | create limits => exact .create limits
  | define d k _ hname hmethods ih =>
      obtain ⟨m', hrun, hsettled, -⟩ := ih.define hprograms k hname hmethods
      rw [Op.after_ok hrun]
      exact hsettled
  | newInstance name ds args k _ ih => exact ih.newInstance hprograms name ds args k
  | aside _ hframes hguards hbare hequipped ih => exact ih.aside hframes hguards hbare hequipped

/-- A constructor that does nothing. -/
def makers : Programs := [("make", [])]

/-- A program without steps keeps every library. -/
theorem makers_keep (l : Library) : makers.Keep l := by
  intro name
  have hbody : (makers.lookup name).getD [] = [] := by
    rw [makers, List.lookup_cons]
    cases name == "make" <;> rfl
  have henter : makers.enter (.code (.program name)) = (do
      pure ((← Act.mapError StepError.toScriptError (Step.runAll [])).getD 0)) := by rw [Programs.enter, hbody]
  rw [henter]
  exact .bind (.mapError (.pure none)) fun _ => .pure _

/-- The class of vectors. -/
def vectors : ClassDef := { name := "Vec2", size := 16, constructor := some (.program "make") }

/-- The class of vectors was defined, and a handle was pushed. -/
def handling : Machine := (Op.after (Act.defineClass vectors (makers.host 1)) (Machine.create {})).push (.light 8)

end Machine

end ScriptHost
