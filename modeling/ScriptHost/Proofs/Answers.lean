import ScriptHost.Proofs.Construction
import ScriptHost.Proofs.Freshness
import ScriptHost.Proofs.Growth
import ScriptHost.Proofs.RoundTrip
import ScriptHost.Proofs.Traceback

/-! # What the properties answer

The function that reads the properties of a peer is called with a handle and a name, and gives one value:
the result of a getter, what the bytes of a member mean, or nil for a name that is no property.
-/

namespace ScriptHost

namespace Machine

variable {m : Machine} {f : Nat} {args : List Value} {o : Origin}

/-! ## Calls for one value -/

/-- The first of so many results of the running frame; nil if there is none. -/
def result (m : Machine) (n : Nat) : Value := (latest n m.own).headD .nil

/-- A function and its arguments lie on top. -/
def pushCall (m : Machine) (f : Nat) (args : List Value) : Machine := args.foldl push (m.push (.function f))

/-- The frame of the function has just been entered. -/
def inCall (m : Machine) (f : Nat) (args : List Value) (o : Origin) : Machine :=
  (m.pushCall f args).enterFrame ⟨m.stack.size, o⟩

/-- A call has put one value on top, and left the rest to what the function did. -/
structure Answered (m left : Machine) (v : Value) (m' : Machine) : Prop where
  stack : m'.stack = m.stack.push v
  frames : m'.frames = m.frames
  heap : m'.heap = left.heap
  strings : m'.strings = left.strings
  closed : m'.closed = left.closed

theorem foldl_push (args : List Value) (m : Machine) :
    args.foldl push m = { m with stack := (m.stack.toList ++ args).toArray } := by
  induction args generalizing m with
  | nil => simp
  | cons v args ih =>
      rw [List.foldl_cons, ih]
      simp [push]

theorem pushCall_eq :
    m.pushCall f args = { m with stack := (m.stack.toList ++ .function f :: args).toArray } := by
  rw [pushCall, foldl_push]
  simp [push]

theorem laid_pushCall : Laid m.base (m.stack.toList ++ .function f :: args) (m.pushCall f args) := by
  rw [pushCall_eq]
  exact ⟨rfl, rfl⟩

theorem laid_inCall : Laid (m.stack.size + 1) (m.stack.toList ++ .function f :: args) (m.inCall f args o) := by
  rw [inCall, pushCall_eq]
  exact ⟨rfl, rfl⟩

@[simp] theorem heap_inCall : (m.inCall f args o).heap = m.heap := by
  rw [inCall, pushCall_eq]
  rfl

@[simp] theorem limits_inCall : (m.inCall f args o).limits = m.limits := by
  rw [inCall, pushCall_eq]
  rfl

@[simp] theorem closed_inCall : (m.inCall f args o).closed = m.closed := by
  rw [inCall, pushCall_eq]
  rfl

@[simp] theorem depth_inCall : (m.inCall f args o).depth = m.depth + 1 := by
  rw [inCall, pushCall_eq]
  rfl

@[simp] theorem size_inCall : (m.inCall f args o).stack.size = m.stack.size + args.length + 1 := by
  rw [laid_inCall.size, List.length_append, Array.length_toList, List.length_cons, Nat.add_assoc]

theorem framed_inCall : (m.inCall f args o).Framed := by
  have hl : Laid _ _ (m.inCall f args o) := laid_inCall
  rw [Framed, hl.base, size_inCall]
  omega

theorem fitted_one (vs : List Value) : fitted 1 vs = [vs.headD .nil] := by
  cases vs with
  | nil => rfl
  | cons v vs => simp [fitted]

end Machine

namespace Act

open Machine

variable {host : Host} {m left : Machine} {f n : Nat} {args : List Value} {fn : Closure Native}
  {e : ScriptError}

theorem enters_inCall (hroom : (m.pushCall f args).atLimit = false) (hf : m.heap.function? f = some fn) :
    Enters m.stack.size (m.pushCall f args) fn.body.behaviour (m.inCall f args fn.body.origin) := by
  have hat : (m.pushCall f args).stack[m.stack.size]? = some (.function f) := by
    rw [← Array.length_toList]
    exact laid_pushCall.getElem?
  exact .intro hroom (callee_function hat) (by rw [pushCall_eq]; exact hf)

/-- A function that returns leaves as many of its results as are wanted in its place. -/
theorem callAt_returned (wanted : Nat) (hhost : host.Lawful) (hroom : (m.pushCall f args).atLimit = false)
    (hf : m.heap.function? f = some fn)
    (hrun : host.enter fn.body.behaviour (m.inCall f args fn.body.origin) = .ok n left)
    (hclosed : left.closed = m.closed) :
    ∃ m', callAt m.stack.size wanted host (m.pushCall f args) = .ok () m' ∧
      m'.stack.toList = m.stack.toList ++ fitted wanted (latest n left.own) ∧ m'.frames = m.frames ∧
      m'.heap = left.heap ∧ m'.strings = left.strings ∧ m'.closed = left.closed := by
  have hruns : Runs [] (m.inCall f args fn.body.origin) left :=
    Op.after_ok hrun ▸ hhost fn.body.behaviour _ framed_inCall
  obtain ⟨hover, hframes⟩ := hruns.over laid_pushCall (Array.length_toList).symm
    (hclosed.trans (by rw [pushCall_eq]))
  have hsize : m.stack.toList.length = m.stack.size := Array.length_toList
  refine ⟨left.returnResults m.stack.size wanted n, (enters_inCall hroom hf).returns hrun wanted, ?_, ?_,
    heap_returnResults, strings_returnResults, closed_returnResults⟩
  · rw [← hsize, toList_returnResults hover hframes hsize.symm,
      if_neg (Int.not_lt.mpr (Int.natCast_nonneg wanted)), Int.toNat_natCast]
  · rw [← hsize, (laid_returnResults wanted n ((List.prefix_append _ _).trans hover) hframes).1, pushCall_eq]

/-- A function that returns answers its call with the first of its results. -/
theorem callAt_answered (hhost : host.Lawful) (hroom : (m.pushCall f args).atLimit = false)
    (hf : m.heap.function? f = some fn)
    (hrun : host.enter fn.body.behaviour (m.inCall f args fn.body.origin) = .ok n left)
    (hclosed : left.closed = m.closed) :
    ∃ m', callAt m.stack.size 1 host (m.pushCall f args) = .ok () m' ∧
      m.Answered left (left.result n) m' := by
  obtain ⟨m', hcall, hstack, hframes, hheap, hstrings, hclosed⟩ :=
    callAt_returned 1 hhost hroom hf hrun hclosed
  refine ⟨m', hcall, ?_, hframes, hheap, hstrings, hclosed⟩
  rw [← Array.toList_inj, hstack]
  simp [fitted_one, result]

theorem callAt_failed (hroom : (m.pushCall f args).atLimit = false) (hf : m.heap.function? f = some fn)
    (hrun : host.enter fn.body.behaviour (m.inCall f args fn.body.origin) = .error e left) :
    ∃ m', callAt m.stack.size 1 host (m.pushCall f args) = .error e m' :=
  ⟨_, (enters_inCall hroom hf).fails hrun 1⟩

end Act

namespace Machine

variable {m : Machine} {v w fv : Value} {f : Nat} {args : List Value} {o : Origin} {fr : Frame}
  {frames : List Frame} {fn : Closure Native}

theorem value_upvalue (hframes : m.frames = fr :: frames) (hat : m.stack[fr.function]? = some (.function f))
    (hf : m.heap.function? f = some fn) (n : Nat) :
    m.value (.upvalue (n + 1)) = fn.upvalues[n]?.getD .nil := by
  simp [value, upvalue?, runningFunction?, hframes, hat, hf]

theorem pushAt_of_value {i : StackIndex} (h : m.value i = v) : m.pushAt i = m.push v := by
  rw [pushAt, h]

/-- A value on top is the result of a frame that returns one. -/
theorem Laid.result_one {s : List Value} {b : Nat} (hl : Laid b (s ++ [v]) m) (hb : b ≤ s.length) :
    m.result 1 = v := by
  rw [result, own, hl.base, hl.stack, List.drop_append_of_le_length hb, latest]
  simp

theorem inCall_at (m : Machine) (f : Nat) (args : List Value) (o : Origin) :
    (m.inCall f args o).stack[m.stack.size]? = some (.function f) := by
  rw [← Array.length_toList]
  exact laid_inCall.getElem?

/-- The arguments of a function lie above it. -/
theorem Laid.arguments {s rest : List Value} (hl : Laid (s.length + 1) (s ++ fv :: v :: w :: rest) m) :
    m.value (.argument 1) = v ∧ m.value (.argument 2) = w := by
  have hfirst : Laid (s.length + 1) ((s ++ [fv]) ++ v :: (w :: rest)) m := by simpa using hl
  have hsecond : Laid (s.length + 1) ((s ++ [fv, v]) ++ w :: rest) m := by simpa using hl
  exact ⟨hfirst.value_fromBottom (by simp) (by simp), hsecond.value_fromBottom (by simp) (by simp)⟩

theorem atLimit_pushCall (hdepth : m.depth < m.limits.callDepth)
    (hsize : m.stack.size + args.length + 1 ≤ m.limits.stackSlots) : (m.pushCall f args).atLimit = false := by
  have hlength : (m.stack.toList ++ .function f :: args).length = m.stack.size + args.length + 1 := by
    simp only [List.length_append, List.length_cons, Array.length_toList]
    omega
  rw [pushCall_eq, atLimit, Bool.or_eq_false_iff, decide_eq_false_iff_not, decide_eq_false_iff_not]
  refine ⟨Nat.not_le.mpr hdepth, Nat.not_lt.mpr ?_⟩
  rw [List.size_toArray, hlength]
  exact hsize

theorem Reachable.inCall (hm : m.Reachable) : (m.inCall f args o).Reachable := by
  have hpushed : (m.pushCall f args).Reachable :=
    List.foldlRecOn (motive := Reachable) args Machine.push (hm.push (.function f)) fun _ hm v _ => hm.push v
  have hsize : m.stack.size < (m.pushCall f args).stack.size := by
    rw [laid_pushCall.size]
    simp
  have hl : Laid m.base _ (m.pushCall f args) := laid_pushCall
  exact hpushed.moves (.single (.enter _ (hl.base ▸ hm.framed) hsize))

end Machine

namespace Act

open Machine

variable {host : Host} {m : Machine} {v key : Value} {args : List Value} {f n : Nat}

/-- A function that lies on its two arguments is pushed with them. -/
theorem pushAt_arguments {s : List Value} {fv w : Value} (hl : Laid (s.length + 1) (s ++ fv :: v :: [key]) m) :
    ((m.push w).pushAt (.argument 1)).pushAt (.argument 2) = ((m.push w).push v).push key := by
  have hpushed : Laid (s.length + 1) (s ++ fv :: v :: key :: [w]) (m.push w) := by
    simpa using hl.push
  have hpushed' : Laid (s.length + 1) (s ++ fv :: v :: key :: [w, v]) ((m.push w).push v) := by
    simpa using hpushed.push
  rw [pushAt_of_value hpushed.arguments.1, pushAt_of_value hpushed'.arguments.2]

theorem call_pushCall (hm : m.Framed) (hn : args.length = n) (wanted : Int) :
    call n wanted host (m.pushCall f args) = callAt m.stack.size wanted host (m.pushCall f args) := by
  rw [← Array.length_toList, ← hn]
  exact call_position (functionBelow?_laid laid_pushCall (by rw [Array.length_toList]; exact hm))

end Act

/-! ## Members -/

/-- What the bytes of a member of an object mean; `none` for an address that no light handle can hold. -/
def Machine.content? (m : Machine) (object : Address) (member : Member) : Option Content :=
  m.heap.memory.content? member.tag (m.heap.memory.read (Op.memberAddress object member) member.tag.size)

/-- Only a text is nil. -/
theorem MemberTag.decode_ne_nil {tag : MemberTag} (htag : tag ≠ .text) (bytes : Bytes) :
    tag.decode bytes ≠ .ok (.inr .nil) := by
  intro h
  cases tag with
  | pointer =>
      simp only [decode, Value.light?] at h
      by_cases hfits : Bytes.toNat bytes < Value.lightBound <;> simp [hfits] at h
  | text => exact htag rfl
  | _ => cases h

namespace Machine

variable {m m' : Machine} {v : Value} {object : Address} {member : Member} {c : Content}

/-- A member is a text, and that is null. -/
def NullText (m : Machine) (object : Address) (member : Member) : Prop :=
  member.tag = .text ∧ m.heap.memory.readPointer (Op.memberAddress object member) = 0

theorem content?_eq_nil : m.content? object member = some (.value .nil) ↔ m.NullText object member := by
  unfold content? Memory.content? NullText Memory.readPointer
  by_cases htag : member.tag = .text
  · have hsize : member.tag.size = Memory.pointerSize := by rw [htag]; rfl
    rw [if_pos htag, hsize]
    split <;> simp_all
  · rw [if_neg htag]
    refine ⟨fun h => ?_, fun h => absurd h.1 htag⟩
    generalize m.heap.memory.read (Op.memberAddress object member) member.tag.size = bytes at h
    split at h
    · cases h
    · rename_i hdecode
      cases h
      exact absurd hdecode (MemberTag.decode_ne_nil htag bytes)
    · cases h

theorem Reads.isNil_iff (h : m.Reads v c) : v.isNil = true ↔ c = .value .nil := by
  cases c with
  | int i =>
      cases v with
      | nil => cases h
      | _ => simp [Value.isNil]
  | value w =>
      obtain rfl : v = w := h
      cases v <;> simp [Value.isNil]
  | text bytes =>
      obtain ⟨id, rfl, -⟩ := h
      simp [Value.isNil]

theorem Reads.of_eq (h : m.Reads v c) (hheap : m'.heap = m.heap) (hstrings : m'.strings = m.strings) :
    m'.Reads v c := by
  cases c with
  | int i =>
      change m'.heap.toInt? v = some i
      rw [hheap]
      exact h
  | value w => exact h
  | text bytes =>
      obtain ⟨id, hv, hget⟩ := h
      exact ⟨id, hv, hstrings ▸ hget⟩

end Machine

namespace Op

open Machine

variable {m m' : Machine} {object : Address} {member : Member} {u : Unit}

/-- One value was pushed, and nothing had to be made for it if it is nil. -/
structure Pushes (m m' : Machine) : Prop where
  frames : m'.frames = m.frames
  closed : m'.closed = m.closed
  stack : ∃ v, m'.stack = m.stack.push v ∧ (v.isNil = true → m'.heap = m.heap)

theorem pushes_pushInt (m : Machine) (i : Int) : Pushes m (m.pushInt i) := by
  cases hfits : Value.fitsInline i with
  | true =>
      rw [pushInt_inline hfits]
      exact ⟨rfl, rfl, _, rfl, fun _ => rfl⟩
  | false =>
      rw [pushInt_newBoxed hfits]
      exact ⟨rfl, rfl, _, rfl, fun hv => by cases hv⟩

theorem readMember_pushes (h : readMember object member m = .ok u m') : Pushes m m' := by
  rw [readMember, bind_ok run_get] at h
  dsimp only at h
  by_cases htag : member.tag = .text
  · rw [if_pos htag] at h
    split at h
    · cases h
      exact ⟨rfl, rfl, _, rfl, fun _ => rfl⟩
    · cases h
      exact ⟨rfl, rfl, _, rfl, fun hv => by cases hv⟩
  · rw [if_neg htag] at h
    cases hdecode : member.tag.decode
        (m.heap.memory.read (memberAddress object member) member.tag.size) with
    | error a =>
        rw [hdecode] at h
        cases h
    | ok read =>
        rw [hdecode] at h
        cases read with
        | inl i =>
            cases h
            exact pushes_pushInt m i
        | inr v =>
            cases h
            exact ⟨rfl, rfl, _, rfl, fun _ => rfl⟩

theorem readMember_refused (h : m.content? object member = none) :
    ∃ e, readMember object member m = .error e m := by
  rw [readMember, bind_ok run_get]
  unfold Machine.content? at h
  dsimp only
  generalize m.heap.memory.read (memberAddress object member) member.tag.size = bytes at h ⊢
  unfold Memory.content? at h
  by_cases htag : member.tag = .text
  · rw [if_pos htag] at h
    split at h <;> cases h
  · rw [if_neg htag] at h ⊢
    cases hdecode : member.tag.decode bytes with
    | error a => exact ⟨_, rfl⟩
    | ok read =>
        rw [hdecode] at h
        cases read <;> cases h

end Op

namespace Act

open Machine

variable {host : Host} {c : Machine} {p : Peer} {v : Value} {name : String} {block object : Address}
  {member : Member}

/-- A name that is no property has nil for an answer. -/
theorem readProperty_none (haccepts : p.Accepts c v block object) (hnames : Peer.Names c v name)
    (hgetter : p.getters.lookup name = none) (hmember : p.members.get? name = none) :
    readProperty p host c = .ok 1 (c.push .nil) := by
  rw [readProperty, bind_ok (run_lift.trans (haccepts.objectAddress hnames.handle)),
    bind_ok (run_lift.trans (Peer.keyName_ok hnames))]
  simp only [hgetter, hmember]
  rfl

theorem readProperty_refused (hv : c.value (.argument 1) = v)
    (hrefused : ∀ block object, ¬ p.Accepts c v block object) :
    ∃ e c', readProperty p host c = .error e c' := by
  rw [readProperty, run_bind, run_lift]
  cases hobject : p.objectAddress c with
  | error e c' => exact ⟨e, c', rfl⟩
  | ok object c' =>
      obtain ⟨-, block, haccepts⟩ := Peer.accepts_of_objectAddress hobject
      exact absurd (hv ▸ haccepts) (hrefused block object)

/-- What a member holds is the answer. -/
theorem readProperty_member (haccepts : p.Accepts c v block object) (hnames : Peer.Names c v name)
    (hgetter : p.getters.lookup name = none) (hmember : p.members.get? name = some member) {content : Content}
    (hcontent : c.content? object member = some content) (hc : c.heap.Sound) (hframed : c.Framed) :
    ∃ c', readProperty p host c = .ok 1 c' ∧ c'.Reads (c'.result 1) content ∧ c'.closed = c.closed ∧
      ((c'.result 1).isNil = true → c'.heap = c.heap) := by
  obtain ⟨a, c', hrun, hstack, hreads⟩ := Op.readMember_reads hc hcontent
  obtain ⟨hframes, hclosed, a', hstack', hheap⟩ := Op.readMember_pushes hrun
  obtain ⟨rfl, -⟩ := Array.push_eq_push.mp (hstack.symm.trans hstack')
  have hl : Laid c.base (c.stack.toList ++ [a]) c' := by
    refine (show Laid c.base (c.stack.toList ++ [a]) (c.push a) from ?_).of_eq hframes hstack
    exact Laid.push ⟨rfl, rfl⟩
  have hresult : c'.result 1 = a := hl.result_one (by rw [Array.length_toList]; exact hframed)
  rw [readProperty_eq haccepts hnames hgetter hmember]
  exact ⟨c', bind_ok (run_lift.trans hrun), hresult.symm ▸ hreads, hclosed, hresult.symm ▸ hheap⟩

theorem readProperty_overflows (haccepts : p.Accepts c v block object) (hnames : Peer.Names c v name)
    (hgetter : p.getters.lookup name = none) (hmember : p.members.get? name = some member)
    (hcontent : c.content? object member = none) : ∃ e, readProperty p host c = .error e c := by
  obtain ⟨e, hrun⟩ := Op.readMember_refused hcontent
  exact ⟨e, by rw [readProperty_eq haccepts hnames hgetter hmember, run_bind, run_lift, hrun]⟩

end Act

/-! ## Getters -/

/-- A function that runs native code of the host. -/
def NativeCode.closure (code : NativeCode) : Closure Native where
  body := { behaviour := .code code, origin := .host }
  upvalues := #[]

namespace Machine

/-- A new function has been made. -/
def making (m : Machine) (f : Closure Native) : Machine := { m with heap := (m.heap.newFunction f).2 }

/-- A function for a getter has been made and is called with the handle, the key and the object. -/
def inGetter (m : Machine) (getter : NativeCode) (v key : Value) (object : Address) : Machine :=
  (m.making getter.closure).inCall (m.heap.newFunction getter.closure).1 [v, key, .light object] .host

end Machine

namespace Act

open Machine

variable {host : Host} {c c₁ left : Machine} {p : Peer} {v fv key : Value} {s : List Value} {name : String}
  {block object : Address} {getter : NativeCode} {n : Nat} {e : ScriptError}

theorem readProperty_getter (haccepts : p.Accepts c v block object) (hnames : Peer.Names c v name)
    (hgetter : p.getters.lookup name = some getter) : readProperty p host c =
      (do
        pushNative getter
        modify fun m => (m.pushAt (.argument 1)).pushAt (.argument 2)
        Op.pushLight object
        call 3 1
        pure 1 : Act ScriptError Nat) host c := by
  rw [readProperty, bind_ok (run_lift.trans (haccepts.objectAddress hnames.handle)),
    bind_ok (run_lift.trans (Peer.keyName_ok hnames))]
  simp only [hgetter]

theorem pushNative_made {code : NativeCode} (h : (collectIfDue : Act ScriptError Unit) host c = .ok () c₁) :
    (pushNative code : Act ScriptError Unit) host c =
      .ok () ((c₁.making code.closure).push (.function (c₁.heap.newFunction code.closure).1)) := by
  obtain ⟨f, rfl, hpush⟩ := pushNative_ok code h
  exact hpush

/-- No getter is called on an object whose address no light handle can hold. -/
theorem readProperty_getter_refused (haccepts : p.Accepts c v block object) (hnames : Peer.Names c v name)
    (hgetter : p.getters.lookup name = some getter) (hobject : ¬ object < Value.lightBound) :
    ∃ e c', readProperty p host c = .error e c' := by
  obtain ⟨c₁, hcollect, -⟩ := collectIfDue_cases (ε := ScriptError) host c
  cases hrun : readProperty p host c with
  | error e c' => exact ⟨e, c', rfl⟩
  | ok n c' =>
      rw [readProperty_getter haccepts hnames hgetter, bind_ok (pushNative_made hcollect), run_bind,
        run_modify] at hrun
      dsimp only at hrun
      rw [run_bind, run_lift, Op.pushLight_refused hobject] at hrun
      cases hrun

/-- A getter is called with the handle, the key and the object, after a collection that was due. -/
theorem readProperty_calls (haccepts : p.Accepts c v block object) (hnames : Peer.Names c v name)
    (hgetter : p.getters.lookup name = some getter) (hobject : object < Value.lightBound)
    (hcollect : (collectIfDue : Act ScriptError Unit) host c = .ok () c₁)
    (hl : Laid (s.length + 1) (s ++ fv :: v :: [key]) c₁) :
    readProperty p host c = (do callAt c₁.stack.size 1; pure 1 : Act ScriptError Nat) host
      ((c₁.making getter.closure).pushCall (c₁.heap.newFunction getter.closure).1
        [v, key, .light object]) := by
  have hmade : Laid (s.length + 1) (s ++ fv :: v :: [key]) (c₁.making getter.closure) := hl.of_eq rfl rfl
  have hframed : (c₁.making getter.closure).Framed := by
    rw [Framed, hmade.base, hmade.size]
    simp
  have hcall : call 3 1 host ((c₁.making getter.closure).pushCall (c₁.heap.newFunction getter.closure).1
      [v, key, .light object]) = callAt c₁.stack.size 1 host ((c₁.making getter.closure).pushCall
        (c₁.heap.newFunction getter.closure).1 [v, key, .light object]) := call_pushCall hframed rfl 1
  rw [readProperty_getter haccepts hnames hgetter, bind_ok (pushNative_made hcollect), run_bind, run_modify]
  dsimp only
  rw [pushAt_arguments hmade, bind_ok (run_lift.trans (Op.pushLight_ok hobject))]
  change (do call 3 1; pure 1 : Act ScriptError Nat) host ((c₁.making getter.closure).pushCall
    (c₁.heap.newFunction getter.closure).1 [v, key, .light object]) = _
  rw [run_bind, hcall, run_bind]

section Call

variable (hhost : host.Lawful) (hc : c.Reachable) (hl : Laid (s.length + 1) (s ++ fv :: v :: [key]) c)
  (hdepth : c.depth < c.limits.callDepth) (hsize : c.stack.size + 4 ≤ c.limits.stackSlots)
  (hcollect : (collectIfDue : Act ScriptError Unit) host c = .ok () c₁) (hopen : c₁.closed = c.closed)

include hhost hc hl hdepth hsize hcollect hopen

/-- Nothing keeps the getter from being called. -/
theorem getter_ready : Laid (s.length + 1) (s ++ fv :: v :: [key]) c₁ ∧
    ((c₁.making getter.closure).pushCall (c₁.heap.newFunction getter.closure).1
      [v, key, .light object]).atLimit = false ∧
    (c₁.making getter.closure).heap.function? (c₁.heap.newFunction getter.closure).1 =
      some getter.closure := by
  have hl₁ := (collectIfDue_spec (s ++ fv :: v :: [key]) fun _ => True).ok hhost hc.framed hl hcollect hopen
  have hruns := collectIfDue_lawful.run_ok hhost hc.framed hcollect
  have hframes : c₁.frames = c.frames := (hruns.isolated hc.framed hopen).frames
  have hsame : c₁.stack.size = c.stack.size := by rw [hl₁.size, hl.size]
  refine ⟨hl₁, atLimit_pushCall ?_ ?_, ?_⟩
  · change c₁.frames.length < c₁.limits.callDepth
    rw [hframes, hruns.limits]
    exact hdepth
  · change c₁.stack.size + 3 + 1 ≤ c₁.limits.stackSlots
    rw [hsame, hruns.limits]
    exact hsize
  · exact Heap.function?_newFunction (hc.runs hruns).heap_sound _

variable (haccepts : p.Accepts c v block object) (hnames : Peer.Names c v name)
  (hgetter : p.getters.lookup name = some getter) (hobject : object < Value.lightBound)

include haccepts hnames hgetter hobject

theorem readProperty_failed
    (hrun : host.enter (.code getter) (c₁.inGetter getter v key object) = .error e left) :
    ∃ c', readProperty p host c = .error e c' := by
  obtain ⟨hl₁, hroom, hfunction⟩ := getter_ready hhost hc hl hdepth hsize hcollect hopen
  obtain ⟨c₂, hcall⟩ := callAt_failed hroom hfunction hrun
  have hcalled : callAt c₁.stack.size 1 host _ = _ := hcall
  rw [readProperty_calls haccepts hnames hgetter hobject hcollect hl₁, run_bind, hcalled]
  exact ⟨c₂, rfl⟩

/-- What a getter returns is the answer. -/
theorem readProperty_answered
    (hrun : host.enter (.code getter) (c₁.inGetter getter v key object) = .ok n left)
    (hclosed : left.closed = c.closed) :
    ∃ c', readProperty p host c = .ok 1 c' ∧ c'.result 1 = left.result n ∧ c'.heap = left.heap ∧
      c'.strings = left.strings ∧ c'.closed = left.closed := by
  obtain ⟨hl₁, hroom, hfunction⟩ := getter_ready hhost hc hl hdepth hsize hcollect hopen
  obtain ⟨c₂, hcall, hanswered⟩ := callAt_answered hhost hroom hfunction hrun (hclosed.trans hopen.symm)
  have hcalled : callAt c₁.stack.size 1 host _ = _ := hcall
  have htop : Laid (s.length + 1) (s ++ fv :: v :: [key] ++ [left.result n]) c₂ :=
    hl₁.push.of_eq hanswered.frames hanswered.stack
  rw [readProperty_calls haccepts hnames hgetter hobject hcollect hl₁, run_bind, hcalled]
  exact ⟨c₂, rfl, htop.result_one (by simp), hanswered.heap, hanswered.strings, hanswered.closed⟩

end Call

end Act

end ScriptHost
