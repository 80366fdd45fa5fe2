import ScriptHost.Proofs.Creation
import ScriptHost.Proofs.MarshaledCall
import ScriptHost.Proofs.Outcome

/-! # Instances for the host

The host names a class and a source for the target of the new instance. It calls the library for it, and what
fails on the way leaves the stack as it was.
-/

namespace ScriptHost

open Machine

namespace Machine

variable {m m' : Machine} {objects held : List Address} {mt size : Nat} {v w : Value} {a : Address}
  {h : Hook} {id : StringId} {name : String}

theorem Instantiates.passes (hmakes : m.Instantiates mt h size) (hpasses : m.Passes m') :
    m'.Instantiates mt h size :=
  hmakes.of_eq (by rw [hpasses.heap]) (by rw [hpasses.heap]) hpasses.registry hpasses.strings

/-- What is called a class makes instances that take their target with a hook. -/
def Produces (m : Machine) (v : Value) (h : Hook) (size : Nat) : Prop :=
  v.kind = .table → ∃ mt, v = .table mt ∧ m.Instantiates mt h size

theorem Produces.passes (hproduces : m.Produces v h size) (hpasses : m.Passes m') : m'.Produces v h size := by
  intro hkind
  obtain ⟨mt, hv, hmakes⟩ := hproduces hkind
  exact ⟨mt, hv, hmakes.passes hpasses⟩

/-- A value that a new instance may take its target from. -/
structure Feeds (m : Machine) (objects held : List Address) (h : Hook) (v : Value) : Prop where
  live : m.Live objects v
  secure : ∀ a, v = .light a → m.Secure held a
  /-- Boxes are copied from boxes only. -/
  boxes : h = .shareTarget → ∀ a, v ≠ .light a

theorem Reached.passes {r : Ref} (hr : m.Reached r) (hpasses : m.Passes m') (hguards : m.guards = [])
    (hstack : m.stack.toList <+: m'.stack.toList) : m'.Reached r := by
  unfold Reached
  rw [hpasses.heap]
  refine hr.mono fun v hv => ?_
  cases hv with
  | stack hin => exact .stack (Array.mem_toList_iff.mp (hstack.subset (Array.mem_toList_iff.mpr hin)))
  | registry => exact hpasses.registry ▸ .registry
  | globals => exact hpasses.globals ▸ .globals
  | cached hin => exact .cached (hpasses.cached _ _ hin)
  | handler hg | raised hg | outcome hg =>
      rw [hguards] at hg
      cases hg

theorem Feeds.passes (hv : m.Feeds objects held h v) (hpasses : m.Passes m') (hguards : m.guards = [])
    (hstack : m.stack.toList <+: m'.stack.toList) : m'.Feeds objects held h v where
  live := hv.live.passes hpasses
  secure a heq := by
    refine (hv.secure a heq).imp_right fun howned => ?_
    rw [hpasses.targets]
    refine howned.imp_right ?_
    rintro ⟨slot, u, hin, htarget, hreached⟩
    exact ⟨slot, u, hpasses.instances ▸ hin, by rw [target, hpasses.heap]; exact htarget,
      hreached.passes hpasses hguards hstack⟩
  boxes := hv.boxes

/-- What is neither a handle nor a userdata leads nowhere. -/
theorem Feeds.inert (hlight : ∀ a, v ≠ .light a) (huserdata : ∀ slot, v ≠ .userdata slot) :
    m.Feeds objects held h v :=
  ⟨⟨fun slot heq => absurd heq (huserdata slot), fun a heq => absurd heq (hlight a)⟩,
    fun a heq => absurd heq (hlight a), fun _ => hlight⟩

end Machine

namespace Act

variable {m : Machine} {objects held : List Address} {size : Nat} {h : Hook} {id : StringId} {name : String}
  {below : List Value} {fv : Value} {src : Option Value}

/-- `class.New` makes an instance of the class that is registered under a name, if there is one. -/
theorem classNew_conveys (programs : Programs) (k : Nat)
    (hl : Laid (below.length + 1) (below ++ fv :: .string id :: src.toList) m)
    (hid : m.strings.strings[id]? = some (Utf8.encode name))
    (hproduces : m.Produces ((m.heap.table m.registry).get (.string id)) h size) (hh : h ∈ takers)
    (hguards : m.guards = []) (hready : m.Ready) (hopen : m.closed = false) (hm : m.Conserves objects held)
    (hdepth : m.depth < m.limits.callDepth) (hstack : m.stack.size + 3 ≤ m.limits.stackSlots)
    (hfits : m.heap.memory.frontier + size + held.length + 192 ≤ 2 ^ 64) (hpos : m.heap.memory.frontier ≠ 0)
    (hfeeds : ∀ v ∈ src, m.Feeds objects held h v) :
    Ended (fun _ m' => m.Conveys m' objects held) (fun m' => m.Conveys m' objects held)
      (classNew (programs.host (k + 2)) m) := by
  have hname : Op.checkText 1 m = .ok name m := by
    refine Op.checkText_eq ⟨id, ?_, hid⟩
    have hl' : Laid (below.length + 1) ((below ++ [fv]) ++ .string id :: src.toList) m := by
      simpa using hl
    exact hl'.value_fromBottom (by simp) (by simp)
  have htop : m.top = 1 + src.toList.length := by
    rw [hl.top]
    simp
    omega
  have hread : Op.getRegistered name m = _ := rawGetField_found (show m.value .registry = .table m.registry from rfl)
    hready.strings hid
  rw [classNew, bind_ok (run_lift.trans hname), run_bind, run_get]
  dsimp only
  rw [htop, bind_ok (run_lift.trans hread)]
  by_cases hkind : ((m.heap.table m.registry).get (.string id)).kind = .table
  · obtain ⟨mt, hv, hmakes⟩ := hproduces hkind
    rw [if_neg (fun hne => hne hkind), hv]
    have hpushed : m.Passes (m.push (.table mt)) := .push
    have hl' : Laid (below.length + 1) (below ++ fv :: .string id :: (src.toList ++ [.table mt]))
        (m.push (.table mt)) := by
      simpa using hl.push (v := .table mt)
    have hreached : (m.push (.table mt)).Reached ⟨.table, mt⟩ := .start (.stack Array.mem_push_self) rfl
    have hmade := instantiate_conveys programs k hl' (hmakes.passes hpushed) hreached hh hguards (hpushed.ready hready)
      hopen (hm.passes hpushed)
      ⟨hdepth, by rw [push, Array.size_push]; exact hstack⟩ hfits hpos (fun v hv => by
        have hfed := (hfeeds v hv).passes hpushed hguards (by simp [push])
        exact ⟨hfed.live, hfed.secure⟩) fun hshare v hv => (hfeeds v hv).boxes hshare
    exact (hmade.imp (fun _ _ hdone => hpushed.conveys hdone) fun _ hdone => hpushed.conveys hdone).next
      (fun _ _ hdone => hdone) fun _ hdone => hdone
  · rw [if_pos hkind]
    exact .of_passes hm .push

end Act

/-! ## Sources of the host -/

/-- Where the host takes the target of a new instance from. -/
inductive Source where
  | nothing
  | nil
  | handle (a : Address)
  | slot (i : StackIndex)
  deriving DecidableEq, Repr

namespace Source

def directives : Source → List Directive
  | .nothing => []
  | .nil => [.nil]
  | .handle _ => [.light]
  | .slot _ => [.slotFromStart]

def arguments : Source → List Argument
  | .nothing | .nil => []
  | .handle a => [.pointer a]
  | .slot i => [.index i]

/-- The value that a source stands for, where a slot is looked up somehow. -/
def value? (look : StackIndex → Value) : Source → Option Value
  | .nothing => none
  | .nil => some .nil
  | .handle a => some (if a = 0 then .nil else .light a)
  | .slot i => some (look i)

theorem elements_directives (s : Source) : Format.elements s.directives = s.directives.map .scalar := by
  cases s <;> simp [directives, Format.elements, Format.element]

end Source

namespace Reading

/-- The value that a directive finds under an index. -/
def located (m : Machine) (start : Nat) (i : StackIndex) : Value := ((resolveIndex m start i).map m.value).getD .nil

variable {host : Host} {m : Machine} {v w : Value} {i : StackIndex}

/-- A directive pushes the value that its source stands for. -/
theorem scalar_reads (m : Machine) (start : Nat) (s : Source) :
    ∀ d ∈ s.directives, Meets host s.arguments (· = m) (scalar { start } d)
      (fun _ _ m' => ∃ v, s.value? (located m start) = some v ∧ m' = m.push v) (· = m) := by
  intro d hd
  cases s with
  | nothing => cases hd
  | nil =>
      obtain rfl := List.mem_singleton.mp hd
      exact .perform fun m' hm' => ⟨⟨⟩, m'.push .nil, rfl, .nil, rfl, by rw [hm']⟩
  | handle a =>
      obtain rfl := List.mem_singleton.mp hd
      refine .nextArgument (fun h => by cases h) fun _ _ hargs => ?_
      cases hargs
      refine .ite (fun h => absurd h Bool.false_ne_true) fun _ => .ite (fun hnull => ?_) fun hne => ?_
      · exact .change fun m' hm' => ⟨.nil, by rw [Source.value?, if_pos hnull], by rw [hm']⟩
      · refine .orFail fun m' hm' => ?_
        by_cases hfits : a < Value.lightBound
        · rw [Act.run_lift, Op.pushLight_ok hfits]
          exact ⟨.light a, by rw [Source.value?, if_neg hne], by rw [hm']⟩
        · rw [Act.run_lift, Op.pushLight_refused hfits]
          exact hm'
  | slot i =>
      obtain rfl := List.mem_singleton.mp hd
      refine .nextArgument (fun h => by cases h) fun _ _ hargs => ?_
      cases hargs
      refine .bind (α := StackIndex) (Q := fun j _ m' => j = i ∧ m' = m) (.pure fun _ hm' => ⟨rfl, hm'⟩)
        fun j rest => .machine_bind fun m' hm' => ?_
      obtain ⟨rfl, rfl⟩ := hm'
      cases hresolve : resolveIndex m' (if false then m'.top + 1 else (Mode.mk start false false).start) j with
      | none => exact .throw fun _ hm' => hm'
      | some p =>
          have hlocated : located m' start j = m'.value p := congrArg (fun o => (o.map m'.value).getD .nil) hresolve
          refine .ite (fun h => absurd h Bool.false_ne_true) fun _ => ?_
          refine .perform fun m'' hm'' => ⟨⟨⟩, m''.pushAt p, rfl, m'.value p, ?_, by rw [hm'']; rfl⟩
          rw [Source.value?, hlocated]

/-- A source pushes the value that it stands for; if it cannot be read it leaves the machine alone. -/
theorem format_reads (host : Host) (m : Machine) (start : Nat) (s : Source) :
    ∃ problem m', format start s.directives s.arguments host m = .ok problem m' ∧ (problem ≠ none → m' = m) ∧
      (problem = none → m' = (s.value? (located m start)).toList.foldl push m) := by
  have hall : Meets host s.arguments (· = m) (all { start } (Format.elements s.directives))
      (fun _ _ m' => m' = (s.value? (located m start)).toList.foldl push m) (· = m) := by
    rw [s.elements_directives]
    cases hd : s.directives with
    | nil =>
        have hnothing : s.value? (located m start) = none := by
          cases s <;> cases hd
          rfl
        exact .pure fun m' hm' => by rw [hm', hnothing]; rfl
    | cons d rest =>
        obtain rfl : rest = [] := by
          cases s <;> cases hd <;> rfl
        rw [List.map_cons, all, element]
        refine .bind (scalar_reads m start s d (by rw [hd]; exact List.mem_singleton_self d)) fun _ _ => ?_
        refine .pure fun m' hm' => ?_
        obtain ⟨v, hv, rfl⟩ := hm'
        rw [hv]
        rfl
  obtain ⟨r, rest, m', hrun, htried⟩ := hall m rfl
  rw [format, Act.bind_ok hrun]
  cases r with
  | ok u => exact ⟨none, m', rfl, fun hne => absurd rfl hne, fun _ => htried⟩
  | error e => exact ⟨some e, m', rfl, fun _ => htried, fun hnone => by cases hnone⟩

end Reading

namespace Machine

/-- Counted from the top a value is the same. -/
theorem value_fromTop {m : Machine} {n : Nat} (hn : n ≤ m.top) :
    m.value (.fromBottom (m.top + 1 - n)) = m.value (.fromTop n) := by
  have htop : m.top = m.stack.size - m.base := rfl
  have hposition : m.position? (.fromBottom (m.top + 1 - n)) = m.position? (.fromTop n) := by
    change (if 1 ≤ m.top + 1 - n ∧ m.base + (m.top + 1 - n) ≤ m.stack.size then
        some (m.base + (m.top + 1 - n) - 1) else none) = if 1 ≤ n ∧ n ≤ m.top then some (m.stack.size - n) else none
    by_cases hzero : n = 0
    · rw [if_neg (by omega), if_neg (by omega)]
    · rw [if_pos (by omega), if_pos (by omega)]
      exact congrArg some (by omega)
  change ((m.position? _).bind fun p => m.stack[p]?).getD .nil = ((m.position? _).bind fun p => m.stack[p]?).getD .nil
  rw [hposition]

end Machine

namespace Reading

variable {m : Machine} {v w : Value} {i : StackIndex}

/-- A slot that is looked up above a function and its argument is one of the values below, or one of these two. -/
theorem located_pushed (hframes : m.frames = []) : located ((m.push v).push w) (m.top + 1) i = m.value i ∨
    located ((m.push v).push w) (m.top + 1) i ∈ [v, w, .nil] := by
  have hpushed : ∀ n, ((m.push v).push w).value (.fromBottom n) = m.value (.fromBottom n) ∨
      ((m.push v).push w).value (.fromBottom n) ∈ [v, w, .nil] := by
    intro n
    rcases value_push (m.push v) w n with hold | hnew
    · rcases value_push m v n with hold' | hnew'
      · exact .inl (hold.trans hold')
      · exact .inr (by simp [hold, hnew'])
    · exact .inr (by simp [hnew])
  have hnone : Value.nil ∈ [v, w, .nil] := by simp
  cases i with
  | registry | environment => exact .inl rfl
  | upvalue n =>
      refine .inr ?_
      have hnil : ((m.push v).push w).value (.upvalue n) = .nil := by
        simp [Machine.value, upvalue?, runningFunction?, push, hframes]
      exact hnil ▸ hnone
  | fromBottom n =>
      simp only [located, resolveIndex]
      split
      · exact .inr hnone
      · exact hpushed n
  | fromTop n =>
      simp only [located, resolveIndex]
      split
      · exact .inr hnone
      · rename_i hin
        have hle : n ≤ m.top := by
          by_contra hout
          exact hin (.inl (by omega))
        exact (hpushed _).imp_left fun hold => hold.trans (value_fromTop hle)

end Reading

/-! ## The call of the host -/

namespace Machine

/-- What the registry has under a name. -/
def registered (m : Machine) (name : String) : Value :=
  (m.heap.table m.registry).get (.string (m.intern (Utf8.encode name)).1)

theorem HasClass.produces {m : Machine} {name : String} {h : Hook} {size : Nat} (hclass : m.HasClass name h size)
    (hm : m.strings.Sound) : m.Produces (m.registered name) h size := by
  obtain ⟨mt, ⟨id, hid, hget⟩, hmakes⟩ := hclass
  have hregistered : m.registered name = .table mt := by
    rw [registered, intern_known hm hid, hget]
  exact fun _ => ⟨mt, hregistered, hmakes⟩

/-- A call that is pushed counts with its function and its arguments. -/
theorem top_pushCall {m : Machine} (hframed : m.Framed) (g : Nat) (args : List Value) :
    (m.pushCall g args).top = m.top + (args.length + 1) := by
  have hl : Laid m.base (m.stack.toList ++ .function g :: args) (m.pushCall g args) := laid_pushCall
  have hsize := hl.size
  have hbase := hl.base
  rw [List.length_append, List.length_cons, Array.length_toList] at hsize
  unfold Framed at hframed
  unfold top
  omega

end Machine

namespace Act

variable {m : Machine} {objects held : List Address} {size g : Nat} {h : Hook} {id : StringId} {name : String}
  {fn : Closure Native} {src : Option Value}

/-- A call of `class.New` with the name of a class and a source. -/
theorem callClassNew_conveys (programs : Programs) (k : Nat) (hf : m.heap.function? g = some fn)
    (hcode : fn.body.behaviour = .code .classNew) (hid : m.strings.strings[id]? = some (Utf8.encode name))
    (hproduces : m.Produces ((m.heap.table m.registry).get (.string id)) h size) (hh : h ∈ takers)
    (hguards : m.guards = []) (hready : m.Ready) (hopen : m.closed = false) (hm : m.Conserves objects held)
    (hdepth : m.depth + 1 < m.limits.callDepth) (hstack : m.stack.size + 6 ≤ m.limits.stackSlots)
    (hfits : m.heap.memory.frontier + size + held.length + 192 ≤ 2 ^ 64) (hpos : m.heap.memory.frontier ≠ 0)
    (hfeeds : ∀ v ∈ src, m.Feeds objects held h v) :
    Ended (fun _ m' => m.Conveys m' objects held) (fun m' => m.Conveys m' objects held)
      (callAt m.stack.size 1 (programs.host (k + 3)) (m.pushCall g (.string id :: src.toList))) := by
  refine callAt_passing (P := fun m' => m.Conveys m' objects held) _ _ 1 Conveys.passes hf (.of_passes hm (.refl m)) ?_
  rw [hcode]
  have hinside : m.Passes (m.inCall g (.string id :: src.toList) fn.body.origin) := .inCall
  have hlaid : Laid (m.stack.toList.length + 1) (m.stack.toList ++ .function g :: .string id :: src.toList)
      (m.inCall g (.string id :: src.toList) fn.body.origin) := by
    rw [Array.length_toList]
    exact laid_inCall
  have hargs : src.toList.length ≤ 1 := by
    cases src <;> simp
  let inside := m.inCall g (.string id :: src.toList) fn.body.origin
  have hproduced : inside.Produces ((inside.heap.table inside.registry).get (.string id)) h size := by
    rw [hinside.heap, hinside.registry]
    exact hproduces.passes hinside
  have hnew := classNew_conveys programs k hlaid (hinside.strings id _ hid) hproduced hh (hinside.guards hguards)
    (hinside.ready hready) (hinside.closed.trans hopen) (hm.passes hinside)
    (by rw [depth_inCall, limits_inCall]; exact hdepth)
    (by rw [size_inCall, limits_inCall, List.length_cons]; omega)
    (by rw [heap_inCall]; exact hfits) (by rw [heap_inCall]; exact hpos)
    fun v hv => (hfeeds v hv).passes hinside hguards ⟨_, hlaid.stack.symm⟩
  exact hnew.imp (fun _ _ hdone => hinside.conveys hdone)
    fun _ hdone => ⟨hinside.conveys hdone, (hinside.conveys hdone).guards hguards⟩

/-- A source that is looked up above a function and a name feeds what it feeds below them. -/
theorem feeds_pushed {known : Machine} {number : StringId} (s : Source) (hframes : known.frames = [])
    (hvalue : ∀ i, known.value i = m.value i) (hfeeds : ∀ v ∈ s.value? m.value, m.Feeds objects held h v) :
    ∀ v ∈ s.value? (Reading.located ((known.push (.function g)).push (.string number)) (known.top + 1)),
      m.Feeds objects held h v := by
  have hinert : ∀ v ∈ [Value.function g, .string number, .nil], m.Feeds objects held h v := by
    intro v hv
    simp only [List.mem_cons, List.not_mem_nil, or_false] at hv
    rcases hv with rfl | rfl | rfl <;> exact .inert (fun _ heq => by cases heq) fun _ heq => by cases heq
  intro v hv
  cases s with
  | nothing => cases hv
  | nil | handle a => exact hfeeds v hv
  | slot i =>
      obtain rfl := Option.some.inj hv
      rcases Reading.located_pushed (m := known) (v := .function g) (w := .string number) (i := i) hframes with
        hslot | hpushed
      · rw [hslot, hvalue]
        exact hfeeds _ rfl
      · exact hinert _ hpushed

/-- The host makes an instance of the class that is registered under a name, if there is one. -/
theorem newInstance_conveys (programs : Programs) (k : Nat) (name : String) (s : Source) (hframed : m.Framed)
    (hframes : m.frames = []) (hguards : m.guards = []) (hready : m.Ready) (hopen : m.closed = false)
    (hm : m.Conserves objects held) (hproduces : m.Produces (m.registered name) h size) (hh : h ∈ takers)
    (hdepth : 1 < m.limits.callDepth) (hstack : m.stack.size + 6 ≤ m.limits.stackSlots)
    (hfits : m.heap.memory.frontier + size + held.length + 192 ≤ 2 ^ 64) (hpos : m.heap.memory.frontier ≠ 0)
    (hfeeds : ∀ v ∈ s.value? m.value, m.Feeds objects held h v) :
    Ended (fun _ m' => m.Conveys m' objects held) (fun m' => m.Conveys m' objects held)
      (newInstance name s.directives s.arguments (programs.host (k + 3)) m) := by
  obtain ⟨cache, f, hpush, himplements, hcached⟩ := pushClassFunction_eq (programs.host (k + 3)) hframed hready
    (show NativeCode.classNew ∈ Class.codes by decide)
  obtain ⟨g, fn, rfl, hfn, hcode⟩ := himplements.function
  -- With the name of the class interned, function and name are pushed.
  let number := (m.intern (Utf8.encode name)).1
  let known : Machine := (({ m with cache } : Machine).intern (Utf8.encode name)).2
  let asked : Machine := (known.push (.function g)).push (.string number)
  have hknown : m.Passes known := hcached.trans (.intern _)
  have hback : m.Back known := ⟨hknown, rfl, rfl⟩
  have hasked : known.Passes asked := Passes.push.trans .push
  have hframed₁ : known.Framed := hframed
  have htop : asked.top = known.top + 2 := top_pushCall hframed₁ g [.string number]
  have hname : known.strings.strings[number]? = some (Utf8.encode name) :=
    StringPool.intern_found
  rw [newInstance, bind_ok hpush, run_bind, run_modify]
  dsimp only
  change Ended _ _ ((callMarshaled 1 1 s.directives s.arguments .unguarded >>= fun _ => pure ())
    (programs.host (k + 3)) asked)
  obtain ⟨problem, m₂, hread, hbad, hgood⟩ := Reading.format_reads (programs.host (k + 3)) asked (asked.top - 1) s
  refine Ended.next ?_ (fun _ _ hdone => hdone) fun _ hdone => hdone
  rw [callMarshaled_eq 1 .unguarded (by omega) hread]
  cases problem with
  | some e =>
      rw [hbad (Option.some_ne_none e)]
      exact .of_passes hm ((hknown.trans hasked).trans .setTop)
  | none =>
      obtain rfl := hgood rfl
      generalize hsrc : s.value? (Reading.located asked (asked.top - 1)) = src
      have hcalled : src.toList.foldl push asked = known.pushCall g (.string number :: src.toList) := rfl
      rw [hcalled]
      have hcount : 1 + ((known.pushCall g (.string number :: src.toList)).top - asked.top) =
          1 + src.toList.length := by
        rw [top_pushCall hframed₁ g (.string number :: src.toList), htop, List.length_cons]
        omega
      rw [callFormatted, run_bind, run_get]
      dsimp only
      rw [hcount, run_bind, run_attempt, callProtected,
        call_pushCall hframed₁ (by rw [List.length_cons, Nat.add_comm])]
      have hfeeds' : ∀ v ∈ src, m.Feeds objects held h v := by
        rw [← hsrc, show asked.top - 1 = known.top + 1 by omega]
        exact fun v => feeds_pushed s hframes hback.value hfeeds v
      have hproduced : known.Produces (m.registered name) h size := hproduces.passes hknown
      have hfed : ∀ v ∈ src, known.Feeds objects held h v :=
        fun v hv => (hfeeds' v hv).passes hknown hguards List.prefix_rfl
      have hcall := callClassNew_conveys programs k (show known.heap.function? g = some fn from hfn) hcode hname
        hproduced hh hguards (hknown.ready hready) hopen (hm.passes hknown)
        (by rw [depth, show known.frames = [] from hframes]; exact hdepth) hstack hfits hpos hfed
      cases hrun : callAt known.stack.size 1 (programs.host (k + 3))
          (known.pushCall g (.string number :: src.toList)) with
      | ok u m' =>
          rw [hrun] at hcall
          exact hknown.conveys hcall
      | error e m' =>
          rw [hrun] at hcall
          exact (hknown.conveys hcall).passes .setTop

end Act

end ScriptHost
