import ScriptHost.Proofs.Installation

/-! # What a property reads as

The handler that is installed for reading asks the properties first. Whether these had an answer it
tells by the value alone: a getter that returns nil, and a text that is null, count as no answer, and the
entry of the metatable comes out in their place. Any other value of a getter or a member stands,
whatever the metatable stores.
-/

namespace ScriptHost

namespace Machine

/-- What a function keeps as its second upvalue is a table. -/
def Backs (m : Machine) (f mt : Nat) : Prop :=
  ∃ fn, m.heap.function? f = some fn ∧ fn.upvalues[1]? = some (.table mt)

end Machine

namespace Act

open Machine

variable {host : Host} {m left : Machine} {v key : Value} {f r mt n : Nat} {o : Origin} {fn : Closure Native}
  {e : ScriptError}

/-- The handler calls the function that reads the properties with the arguments that it has. -/
theorem pushAt_reader (hf : m.heap.function? f = some fn) (hr : fn.upvalues[0]? = some (.function r)) :
    (((m.inCall f [v, key] o).pushAt (.upvalue 1)).pushAt (.argument 1)).pushAt (.argument 2) =
      (m.inCall f [v, key] o).pushCall r [v, key] := by
  have hl : Laid (m.stack.toList.length + 1) (m.stack.toList ++ .function f :: v :: [key])
      (m.inCall f [v, key] o) := laid_inCall
  have hheap : (m.inCall f [v, key] o).heap.function? f = some fn := by rw [heap_inCall, hf]
  have hreader : (m.inCall f [v, key] o).value (.upvalue 1) = .function r := by
    rw [value_upvalue rfl (inCall_at m f [v, key] o) hheap 0, hr, Option.getD_some]
  rw [pushAt_of_value hreader, pushAt_arguments hl]
  rfl

/-- An error that the properties raise is passed on. -/
theorem readPropertyOrField_failed (hf : m.heap.function? f = some fn)
    (hr : fn.upvalues[0]? = some (.function r))
    (hcall : callAt (m.inCall f [v, key] o).stack.size 1 host ((m.inCall f [v, key] o).pushCall r [v, key]) =
      .error e left) : readPropertyOrField host (m.inCall f [v, key] o) = .error e left := by
  have hcalled : call 2 1 host ((m.inCall f [v, key] o).pushCall r [v, key]) = .error e left :=
    (call_pushCall framed_inCall rfl 1).trans hcall
  rw [readPropertyOrField, run_bind, run_modify]
  dsimp only
  rw [pushAt_reader hf hr, run_bind, hcalled]

/-- The key on top is replaced by its entry in the table. -/
theorem run_rawGet {s : List Value} {b : Nat} {i : StackIndex} (hl : Laid b (s ++ [key]) m)
    (hb : b ≤ s.length) (hi : m.absolute i = i) (htable : m.value i = .table mt) :
    ∃ m', Op.rawGet i m = .ok (m.rawGet mt key).kind m' ∧ Laid b (s ++ [m.rawGet mt key]) m' ∧
      m'.heap = m.heap ∧ m'.strings = m.strings ∧ m'.closed = m.closed := by
  have htop : m.topValue = key := hl.value_fromTop hb rfl
  refine ⟨(m.pop 1).push (m.rawGet mt key), ?_, (hl.pop hb rfl).push, rfl, rfl, rfl⟩
  rw [Op.rawGet, Op.bind_ok Op.run_get, hi, Op.bind_ok (Op.tableAt_eq htable), Op.bind_ok Op.run_get, htop]
  rfl

/-- The answer of the properties is passed on unless it is nil. -/
theorem readPropertyOrField_answered (hf : m.heap.function? f = some fn)
    (hr : fn.upvalues[0]? = some (.function r)) {m₁ : Machine} {a : Value}
    (hcall : callAt (m.inCall f [v, key] o).stack.size 1 host ((m.inCall f [v, key] o).pushCall r [v, key]) =
      .ok () m₁)
    (h : (m.inCall f [v, key] o).Answered left a m₁) (hbacks : a.isNil = true → left.Backs f mt) :
    ∃ m₂, readPropertyOrField host (m.inCall f [v, key] o) = .ok 1 m₂ ∧
      m₂.result 1 = (if a.isNil then left.rawGet mt key else a) ∧
      m₂.heap = left.heap ∧ m₂.strings = left.strings ∧ m₂.closed = left.closed := by
  have hcalled : call 2 1 host ((m.inCall f [v, key] o).pushCall r [v, key]) = .ok () m₁ :=
    (call_pushCall framed_inCall rfl 1).trans hcall
  have hopened : Laid (m.stack.toList.length + 1) (m.stack.toList ++ .function f :: v :: [key])
      (m.inCall f [v, key] o) := laid_inCall
  have hbase : m.stack.toList.length + 1 ≤ (m.stack.toList ++ .function f :: v :: [key]).length := by simp
  have hanswered : Laid (m.stack.toList.length + 1) (m.stack.toList ++ .function f :: v :: [key] ++ [a]) m₁ :=
    (hopened.push (v := a)).of_eq h.frames h.stack
  have htop : m₁.topValue = a := hanswered.value_fromTop hbase rfl
  rw [readPropertyOrField, run_bind, run_modify]
  dsimp only
  rw [pushAt_reader hf hr, bind_ok hcalled, bind_ok run_get, htop]
  by_cases hnil : a.isNil = true
  · rw [if_pos hnil, if_pos hnil]
    obtain ⟨backing, hbacking, htable⟩ := hbacks hnil
    have hpopped : Laid (m.stack.toList.length + 1) (m.stack.toList ++ .function f :: v :: [key])
        (m₁.pop 1) := hanswered.pop hbase rfl
    have hpushed := hpopped.push (v := key)
    have hat : ((m₁.pop 1).push key).stack[m.stack.size]? = some (.function f) := by
      rw [List.append_assoc] at hpushed
      rw [← Array.length_toList]
      exact hpushed.getElem?
    have hupvalue : ((m₁.pop 1).push key).value (.upvalue 2) = .table mt := by
      have hthere : ((m₁.pop 1).push key).heap.function? f = some backing := by
        rw [← hbacking, ← h.heap]
        rfl
      have hframes : ((m₁.pop 1).push key).frames = ⟨m.stack.size, o⟩ :: (m.pushCall f [v, key]).frames :=
        h.frames
      rw [value_upvalue hframes hat hthere 1, htable, Option.getD_some]
    obtain ⟨m₂, hget, hl, hheap, hstrings, hclosed⟩ := run_rawGet hpushed hbase rfl hupvalue
    have hentry : ((m₁.pop 1).push key).rawGet mt key = left.rawGet mt key := by
      rw [Machine.rawGet, Machine.rawGet, ← h.heap]
      rfl
    rw [run_bind, run_modify]
    dsimp only
    rw [pushAt_of_value hpopped.arguments.2, bind_ok (run_lift.trans hget)]
    exact ⟨m₂, rfl, hentry ▸ hl.result_one hbase, hheap.trans h.heap, hstrings.trans h.strings,
      hclosed.trans h.closed⟩
  · rw [if_neg hnil, if_neg hnil]
    exact ⟨m₁, rfl, hanswered.result_one hbase, h.heap, h.strings, h.closed⟩

/-! ## Reading through a handler -/

theorem readChain_failed {fuel : Nat} (hhop : m.readHop v key = .ok (.handler f))
    (hcall : callAt m.stack.size 1 host (m.pushCall f [v, key]) = .error e left) :
    readChain v key (fuel + 1) host m = .error e left := by
  have hcalled : callAt m.stack.size 1 host (((m.push (.function f)).push v).push key) = .error e left := hcall
  rw [readChain, run_bind, run_get]
  simp only [hhop, run_bind, run_modify, hcalled]

theorem readChain_answered {fuel : Nat} {m' : Machine} {a : Value} (hhop : m.readHop v key = .ok (.handler f))
    (hcall : callAt m.stack.size 1 host (m.pushCall f [v, key]) = .ok () m') (h : m.Answered left a m') :
    readChain v key (fuel + 1) host m = .ok a (m'.truncate m.stack.size) := by
  have hcalled : callAt m.stack.size 1 host (((m.push (.function f)).push v).push key) = .ok () m' := hcall
  have hat : m'.stack[m.stack.size]?.getD .nil = a := by simp [h.stack]
  rw [readChain, run_bind, run_get]
  simp only [hhop, run_bind, run_modify, hcalled, run_get, run_pure, hat]

end Act

/-- A host that reads properties as the library does, and calls functions like another host. -/
structure Host.Serves (host inner : Host) : Prop where
  readPropertyOrField : host.enter .readPropertyOrField = Act.readPropertyOrField inner
  readProperty : ∀ p, host.enter (.readProperty p) = Act.readProperty p inner

theorem Programs.host_serves (programs : Programs) (depth : Nat) :
    (programs.host (depth + 1)).Serves (programs.host depth) := ⟨rfl, fun _ => rfl⟩

namespace Machine

variable {host inner innermost : Host} {m : Machine} {f r mt slot : Nat} {p : Peer} {v key : Value}
  {o o' : Origin}

/-- There is room for the three calls of a read, and for what they push. -/
structure Roomy (m : Machine) : Prop where
  calls : m.depth + 3 ≤ m.limits.callDepth
  values : m.stack.size + 10 ≤ m.limits.stackSlots

/-- A handle whose metatable has a handler for its properties is to be read, by hosts that read properties as
    the library does. -/
structure Served (host inner innermost : Host) (m : Machine) (slot mt : Nat) (p : Peer) (f r : Nat)
    (o o' : Origin) : Prop where
  outer : host.Serves inner
  inner : inner.Serves innermost
  roomy : m.Roomy
  offers : m.Offers mt p f r o o'
  metatable : m.metatable? (.userdata slot) = some mt

/-- The properties are asked for a key. -/
def asked (m : Machine) (f r : Nat) (v key : Value) (o o' : Origin) : Machine :=
  (m.inCall f [v, key] o).inCall r [v, key] o'

theorem Served.readHop (h : Served host inner innermost m slot mt p f r o o') (key : Value) :
    m.readHop (.userdata slot) key = .ok (.handler f) := by
  have hfield : m.metafield (.userdata slot) .index = .function f := by
    rw [metafield, metaEntry, h.metatable]
    exact h.offers.index
  unfold Machine.readHop
  rw [hfield]
  rfl

end Machine

namespace Act

open Machine

variable {host inner innermost : Host} {m left : Machine} {f r mt t slot n fuel : Nat} {p : Peer}
  {v key : Value} {o o' : Origin} {e : ScriptError}

/-- The room for the calls of a read. -/
theorem rooms (hm : m.Roomy) : (m.pushCall f [v, key]).atLimit = false ∧
    ((m.inCall f [v, key] o).pushCall r [v, key]).atLimit = false := by
  obtain ⟨hcalls, hvalues⟩ := hm
  constructor
  · exact atLimit_pushCall (by omega) (by simp only [List.length_cons, List.length_nil]; omega)
  · exact atLimit_pushCall (by simp only [depth_inCall, limits_inCall]; omega)
      (by simp only [size_inCall, limits_inCall, List.length_cons, List.length_nil]; omega)

/-- The function that the handler asks is the one that reads the properties. -/
theorem reader_inCall (h : m.Offers mt p f r o o') : ∃ upvalues,
    (m.inCall f [v, key] o).heap.function? r = some ⟨⟨.readProperty p, o'⟩, upvalues⟩ := by
  rw [heap_inCall]
  exact h.reader

/-- A read fails if the properties raise an error. -/
theorem read_failed (h : Served host inner innermost m slot mt p f r o o')
    (hrun : readProperty p innermost (m.asked f r (.userdata slot) key o o') = .error e left) :
    ∃ m', readChain (.userdata slot) key (fuel + 1) host m = .error e m' := by
  obtain ⟨hroom, hroom'⟩ := rooms h.roomy
  obtain ⟨upvalues, hreader⟩ := reader_inCall (v := .userdata slot) h.offers
  obtain ⟨m₁, hcall⟩ := callAt_failed hroom' hreader (by rw [h.inner.readProperty]; exact hrun)
  have hread := readPropertyOrField_failed h.offers.handler rfl hcall
  obtain ⟨m₂, hcall⟩ := callAt_failed hroom h.offers.handler
    (by rw [h.outer.readPropertyOrField]; exact hread)
  exact ⟨m₂, readChain_failed (h.readHop key) hcall⟩

/-- A read gives what the properties answer, or the entry of the table that the handler keeps if that is nil. -/
theorem read_answered (h : Served host inner innermost m slot mt p f r o o') (hhost : host.Lawful)
    (hinner : inner.Lawful)
    (hrun : readProperty p innermost (m.asked f r (.userdata slot) key o o') = .ok n left)
    (hclosed : left.closed = m.closed) (hbacks : (left.result n).isNil = true → left.Backs f t) :
    ∃ m', readChain (.userdata slot) key (fuel + 1) host m =
        .ok (if (left.result n).isNil then left.rawGet t key else left.result n) m' ∧
      m'.heap = left.heap ∧ m'.strings = left.strings := by
  obtain ⟨hroom, hroom'⟩ := rooms h.roomy
  obtain ⟨upvalues, hreader⟩ := reader_inCall (v := .userdata slot) h.offers
  obtain ⟨m₁, hcall, hanswered⟩ := callAt_answered hinner hroom' hreader
    (by rw [h.inner.readProperty]; exact hrun) (hclosed.trans closed_inCall.symm)
  obtain ⟨m₂, hread, hresult, hheap, hstrings, hclosed₂⟩ :=
    readPropertyOrField_answered h.offers.handler rfl hcall hanswered hbacks
  obtain ⟨m₃, hcall, hanswered⟩ := callAt_answered hhost hroom h.offers.handler
    (by rw [h.outer.readPropertyOrField]; exact hread) (hclosed₂.trans hclosed)
  rw [hresult] at hanswered
  exact ⟨_, readChain_answered (h.readHop key) hcall hanswered, hanswered.heap.trans hheap,
    hanswered.strings.trans hstrings⟩

end Act

/-! ## What a read gives -/

namespace Machine

variable {m m' : Machine} {p : Peer} {v key : Value} {f r mt : Nat} {id : StringId} {o o' : Origin}
  {block object : Address} {name : String}

theorem rawGet_of_eq (h : m'.heap = m.heap) : m'.rawGet mt key = m.rawGet mt key := by
  rw [rawGet, rawGet, h]

theorem laid_asked : Laid ((m.inCall f [v, key] o).stack.toList.length + 1)
    ((m.inCall f [v, key] o).stack.toList ++ .function r :: v :: [key]) (m.asked f r v key o o') := laid_inCall

theorem accepts_asked (h : p.Accepts m v block object) : p.Accepts (m.asked f r v key o o') v block object :=
  ⟨h.address, h.room, h.inBlock, h.byPointer⟩

theorem names_asked (hname : Utf8.decodeLossy (m.strings.get id) = name) :
    Peer.Names (m.asked f r v (.string id) o o') v name :=
  ⟨laid_asked.arguments.1, id, laid_asked.arguments.2, hname⟩

theorem depth_asked (hm : m.Roomy) :
    (m.asked f r v key o o').depth < (m.asked f r v key o o').limits.callDepth := by
  simp only [asked, depth_inCall, limits_inCall]
  exact hm.calls

theorem size_asked (hm : m.Roomy) :
    (m.asked f r v key o o').stack.size + 4 ≤ (m.asked f r v key o o').limits.stackSlots := by
  simp only [asked, size_inCall, limits_inCall]
  exact hm.values

theorem Backs.of_eq (h : m.Backs f mt) (hheap : m'.heap = m.heap) : m'.Backs f mt := by
  obtain ⟨fn, hf, htable⟩ := h
  exact ⟨fn, hheap ▸ hf, htable⟩

theorem Offers.backs (h : m.Offers mt p f r o o') (hheap : m'.heap = m.heap) : m'.Backs f mt :=
  ⟨_, hheap ▸ h.handler, rfl⟩

end Machine

namespace Act

open Machine

variable {host inner innermost : Host} {m m₁ left : Machine} {p : Peer} {f r mt t slot n : Nat}
  {id : StringId} {o o' : Origin} {block object : Address} {name : String} {member : Member}
  {getter : NativeCode} {c : Content} {e : ScriptError}

section Read

variable (h : Served host inner innermost m slot mt p f r o o') (fuel : Nat)

include h

/-- A handle that the properties do not accept is not read, not even for an entry of the metatable. -/
theorem read_refused (hrefused : ∀ block object, ¬ p.Accepts m (.userdata slot) block object) :
    ∃ e m', readChain (.userdata slot) (.string id) (fuel + 1) host m = .error e m' := by
  have hasked : ∃ e c, readProperty p innermost (m.asked f r (.userdata slot) (.string id) o o') =
      .error e c := readProperty_refused laid_asked.arguments.1 fun block object haccepts =>
      hrefused block object ⟨haccepts.address, haccepts.room, haccepts.inBlock, haccepts.byPointer⟩
  obtain ⟨e, c, hrun⟩ := hasked
  exact ⟨e, read_failed h hrun⟩

variable (haccepts : p.Accepts m (.userdata slot) block object)
  (hname : Utf8.decodeLossy (m.strings.get id) = name)

include haccepts hname

/-- A member with an address that no light handle can hold cannot be read. -/
theorem read_overflows (hgetter : p.getters.lookup name = none) (hmember : p.members.get? name = some member)
    (hcontent : m.content? object member = none) :
    ∃ e m', readChain (.userdata slot) (.string id) (fuel + 1) host m = .error e m' := by
  have hasked : ∃ e, readProperty p innermost (m.asked f r (.userdata slot) (.string id) o o') = .error e _ :=
    readProperty_overflows (accepts_asked haccepts) (names_asked hname) hgetter hmember hcontent
  obtain ⟨e, hrun⟩ := hasked
  exact ⟨e, read_failed h hrun⟩

/-- A getter is not called for an object with such an address. -/
theorem read_getter_refused (hgetter : p.getters.lookup name = some getter)
    (hobject : ¬ object < Value.lightBound) :
    ∃ e m', readChain (.userdata slot) (.string id) (fuel + 1) host m = .error e m' := by
  have hasked : ∃ e c, readProperty p innermost (m.asked f r (.userdata slot) (.string id) o o') =
      .error e c := readProperty_getter_refused (accepts_asked haccepts) (names_asked hname) hgetter hobject
  obtain ⟨e, c, hrun⟩ := hasked
  exact ⟨e, read_failed h hrun⟩

/-- An error that a getter raises is passed on. -/
theorem read_getter_failed (hm : m.Reachable) (hinnermost : innermost.Lawful)
    (hgetter : p.getters.lookup name = some getter) (hobject : object < Value.lightBound)
    (hcollect : (collectIfDue : Act ScriptError Unit) innermost
      (m.asked f r (.userdata slot) (.string id) o o') = .ok () m₁) (hopen : m₁.closed = m.closed)
    (hrun : innermost.enter (.code getter) (m₁.inGetter getter (.userdata slot) (.string id) object) =
      .error e left) :
    ∃ m', readChain (.userdata slot) (.string id) (fuel + 1) host m = .error e m' := by
  obtain ⟨c, hasked⟩ := readProperty_failed hinnermost hm.inCall.inCall laid_asked (depth_asked h.roomy)
    (size_asked h.roomy) hcollect hopen (accepts_asked haccepts) (names_asked hname) hgetter hobject hrun
  exact read_failed h hasked

variable (hhost : host.Lawful) (hinner : inner.Lawful)

include hhost hinner

/-- A name that is no property is looked up in the metatable. -/
theorem read_missing (hgetter : p.getters.lookup name = none) (hmember : p.members.get? name = none) :
    ∃ m', readChain (.userdata slot) (.string id) (fuel + 1) host m = .ok (m.rawGet mt (.string id)) m' := by
  have hrun : readProperty p innermost (m.asked f r (.userdata slot) (.string id) o o') = .ok 1 _ :=
    readProperty_none (accepts_asked haccepts) (names_asked hname) hgetter hmember
  have hresult : ((m.asked f r (.userdata slot) (.string id) o o').push .nil).result 1 = .nil :=
    laid_asked.push.result_one (by simp)
  obtain ⟨m', hread, -⟩ := read_answered h hhost hinner hrun rfl
    fun _ => h.offers.backs rfl
  rw [hresult] at hread
  exact ⟨m', hread⟩

/-- What a member holds is read; for a null text the metatable is looked up. -/
theorem read_member (hm : m.Reachable) (hgetter : p.getters.lookup name = none)
    (hmember : p.members.get? name = some member) (hcontent : m.content? object member = some c) :
    ∃ v m', m'.Reads v c ∧ readChain (.userdata slot) (.string id) (fuel + 1) host m =
      .ok (if v.isNil then m.rawGet mt (.string id) else v) m' := by
  have hreachable : (m.asked f r (.userdata slot) (.string id) o o').Reachable := hm.inCall.inCall
  have hasked : ∃ c', readProperty p innermost (m.asked f r (.userdata slot) (.string id) o o') =
      .ok 1 c' ∧ _ := readProperty_member (accepts_asked haccepts) (names_asked hname) hgetter hmember hcontent
      hreachable.heap_sound hreachable.framed
  obtain ⟨c', hrun, hreads, hclosed, hheap⟩ := hasked
  obtain ⟨m', hread, hheap', hstrings⟩ := read_answered h hhost hinner hrun
    hclosed fun hnil => h.offers.backs (hheap hnil)
  refine ⟨c'.result 1, m', hreads.of_eq hheap' hstrings, ?_⟩
  by_cases hnil : (c'.result 1).isNil = true
  · have hentry : c'.rawGet mt (.string id) = m.rawGet mt (.string id) := rawGet_of_eq (hheap hnil)
    rw [if_pos hnil, hentry] at hread
    rw [if_pos hnil]
    exact hread
  · rw [if_neg hnil] at hread ⊢
    exact hread

/-- What a getter returns is read; for nil the table that the handler keeps is looked up as the getter left
    it. -/
theorem read_getter (hm : m.Reachable) (hinnermost : innermost.Lawful)
    (hgetter : p.getters.lookup name = some getter) (hobject : object < Value.lightBound)
    (hcollect : (collectIfDue : Act ScriptError Unit) innermost
      (m.asked f r (.userdata slot) (.string id) o o') = .ok () m₁) (hopen : m₁.closed = m.closed)
    (hrun : innermost.enter (.code getter) (m₁.inGetter getter (.userdata slot) (.string id) object) =
      .ok n left) (hclosed : left.closed = m.closed)
    (hbacks : (left.result n).isNil = true → left.Backs f t) :
    ∃ m', readChain (.userdata slot) (.string id) (fuel + 1) host m =
      .ok (if (left.result n).isNil then left.rawGet t (.string id) else left.result n) m' := by
  obtain ⟨c, hasked, hresult, hheap, -, hclosed'⟩ := readProperty_answered hinnermost hm.inCall.inCall
    laid_asked (depth_asked h.roomy) (size_asked h.roomy) hcollect hopen (accepts_asked haccepts)
    (names_asked hname) hgetter hobject hrun hclosed
  obtain ⟨m', hread, -⟩ := read_answered h hhost hinner hasked
    (hclosed'.trans hclosed) fun hnil => (hbacks (hresult ▸ hnil)).of_eq hheap
  rw [hresult, rawGet_of_eq hheap] at hread
  exact ⟨m', hread⟩

end Read

end Act

namespace Machine

variable {m : Machine} {p : Peer} {f r mt slot : Nat} {id : StringId} {o o' : Origin} {name : String}
  {host inner innermost : Host} {outcome : EStateM.Result ScriptError Machine Value}

/-- Reading a name in a handle through the installed handler. A getter of that name decides, else a member,
    else the entry of the metatable. The value of a getter or a member stands whatever the metatable stores,
    except that a nil counts as none: of a getter that returns nil, and of a text that is null, the raw entry
    is read. No other member is read as nil. -/
theorem Reachable.read_precedence (hm : m.Reachable) (hroomy : m.Roomy) (hhost : host.Lawful)
    (hinner : inner.Lawful) (hinnermost : innermost.Lawful) (hserves : host.Serves inner)
    (hserves' : inner.Serves innermost) (hoffers : m.Offers mt p f r o o')
    (hmeta : m.metatable? (.userdata slot) = some mt) (hname : Utf8.decodeLossy (m.strings.get id) = name)
    (fuel : Nat) (hread : Act.readChain (.userdata slot) (.string id) (fuel + 1) host m = outcome) :
    ((∀ block object, ¬ p.Accepts m (.userdata slot) block object) → ∃ e m', outcome = .error e m') ∧
    ∀ block object, p.Accepts m (.userdata slot) block object →
      (∀ getter, p.getters.lookup name = some getter →
        (¬ object < Value.lightBound → ∃ e m', outcome = .error e m') ∧
        (object < Value.lightBound → ∃ m₁, (Act.collectIfDue : Act ScriptError Unit) innermost
            (m.asked f r (.userdata slot) (.string id) o o') = .ok () m₁ ∧
          (m₁.closed = m.closed →
            (∀ e left, innermost.enter (.code getter)
                (m₁.inGetter getter (.userdata slot) (.string id) object) = .error e left →
              ∃ m', outcome = .error e m') ∧
            ∀ n left, innermost.enter (.code getter)
                (m₁.inGetter getter (.userdata slot) (.string id) object) = .ok n left →
              left.closed = m.closed →
              ((left.result n).isNil = false → ∃ m', outcome = .ok (left.result n) m') ∧
              ∀ t, (left.result n).isNil = true → left.Backs f t →
                ∃ m', outcome = .ok (left.rawGet t (.string id)) m'))) ∧
      (p.getters.lookup name = none →
        (∀ member, p.members.get? name = some member →
          (m.content? object member = none → ∃ e m', outcome = .error e m') ∧
          (m.NullText object member → ∃ m', outcome = .ok (m.rawGet mt (.string id)) m') ∧
          ∀ c, m.content? object member = some c → ¬ m.NullText object member →
            ∃ v m', outcome = .ok v m' ∧ m'.Reads v c ∧ v.isNil = false) ∧
        (p.members.get? name = none → ∃ m', outcome = .ok (m.rawGet mt (.string id)) m')) := by
  subst hread
  have h : Served host inner innermost m slot mt p f r o o' := ⟨hserves, hserves', hroomy, hoffers, hmeta⟩
  refine ⟨Act.read_refused h fuel, fun block object haccepts =>
    ⟨fun getter hgetter => ⟨?_, fun hobject => ?_⟩, fun hgetter => ⟨fun member hmember => ⟨?_, ?_, ?_⟩, ?_⟩⟩⟩
  · exact Act.read_getter_refused h fuel haccepts hname hgetter
  · obtain ⟨m₁, hcollect, -⟩ := Act.collectIfDue_cases (ε := ScriptError) innermost
      (m.asked f r (.userdata slot) (.string id) o o')
    refine ⟨m₁, hcollect, fun hopen => ⟨fun e left hrun => ?_, fun n left hrun hclosed => ⟨fun hvalue => ?_,
      fun t hnil hbacks => ?_⟩⟩⟩
    · exact Act.read_getter_failed h fuel haccepts hname hm hinnermost hgetter
        hobject hcollect hopen hrun
    · have hbacks : (left.result n).isNil = true → left.Backs f mt := fun hnil => by simp [hvalue] at hnil
      obtain ⟨m', hread⟩ := Act.read_getter h fuel haccepts hname hhost hinner hm
        hinnermost hgetter hobject hcollect hopen hrun hclosed hbacks
      rw [hvalue, if_neg Bool.false_ne_true] at hread
      exact ⟨m', hread⟩
    · obtain ⟨m', hread⟩ := Act.read_getter h fuel haccepts hname hhost hinner hm
        hinnermost hgetter hobject hcollect hopen hrun hclosed fun _ => hbacks
      rw [if_pos hnil] at hread
      exact ⟨m', hread⟩
  · exact Act.read_overflows h fuel haccepts hname hgetter hmember
  · intro hnull
    obtain ⟨v, m', hreads, hread⟩ := Act.read_member h fuel haccepts hname hhost
      hinner hm hgetter hmember (content?_eq_nil.mpr hnull)
    rw [if_pos (hreads.isNil_iff.mpr rfl)] at hread
    exact ⟨m', hread⟩
  · intro c hcontent hnull
    obtain ⟨v, m', hreads, hread⟩ := Act.read_member h fuel haccepts hname hhost
      hinner hm hgetter hmember hcontent
    have hvalue : v.isNil = false := by
      rw [← Bool.not_eq_true, hreads.isNil_iff]
      exact fun hc => hnull (content?_eq_nil.mp (hc ▸ hcontent))
    rw [hvalue, if_neg Bool.false_ne_true] at hread
    exact ⟨v, m', hread, hreads, hvalue⟩
  · exact Act.read_missing h fuel haccepts hname hhost hinner hgetter

/-- A text is the one property of an object. -/
def caption : Peer := singleMember ⟨"__name", 0, .text⟩ .inBlock

/-- An object with a null text. Its metatable, which has a number under the name of the text, is on top. -/
def uncaptioned : Machine :=
  let h := (create {}).heap.newTable.2
  let h := h.modifyTable 2 fun t => t.set (.string Metafield.name.id) (.int 5)
  loaded ((h.newUserdata 8).2.modifyUserdata 0 fun u => { u with metatable := some 2 }) #[.table 2]

theorem uncaptioned_reachable : uncaptioned.Reachable := by
  have hstep : ∀ {h h' : Heap Native}, h.Change h' → Reachable { create {} with heap := h } →
      Reachable { create {} with heap := h' } := fun hc hm => hm.moves (.single (.change (.heap _ hc)))
  exact (hstep (.userMeta 0 (some 2)) (hstep (.newUserdata 8) (hstep (.entry 2 _ _)
    (hstep .newTable (reachable_create {}))))).push (.table 2)

/-- The number comes out in the place of the null text. -/
theorem uncaptioned_read : ∃ m₁ m',
    Act.installPeer (.fromTop 1) caption (Programs.host [] 2) uncaptioned = .ok () m₁ ∧
    Act.readChain (.userdata 0) (.string Metafield.name.id) 1 (Programs.host [] 2) m₁ = .ok (.int 5) m' := by
  let m₁ := { uncaptioned with heap := (uncaptioned.heap.installed caption 2).2.2 }
  have hlaid : Laid uncaptioned.base ([] ++ .table 2 :: []) uncaptioned := ⟨rfl, rfl⟩
  have hinstall : Act.installPeer (.fromTop 1) caption (Programs.host [] 2) uncaptioned = .ok () m₁ :=
    Act.installPeer_eq (n := 1) uncaptioned_reachable.named caption hlaid (Nat.le_refl _) rfl rfl rfl rfl
      fun n hn => by cases hn; decide
  have hm₁ : m₁.Reachable := uncaptioned_reachable.runs ((Act.installPeer_lawful (.fromTop 1) caption).run_ok
    (Programs.host_lawful 2) uncaptioned_reachable.framed hinstall)
  have htable : uncaptioned.heap.tables.get? 2 =
      some (({} : Table).set (.string Metafield.name.id) (.int 5)) := rfl
  have hoffers := offers_installed uncaptioned_reachable.heap_sound htable caption
  have hmeta : m₁.metatable? (.userdata 0) = some 2 := rfl
  have hname : Utf8.decodeLossy (m₁.strings.get Metafield.name.id) = "__name" := by
    rw [StringPool.get, hm₁.named.names .name, Option.getD_some]
    exact Utf8.decodeLossy_encode _
  have haccepts : caption.Accepts m₁ (.userdata 0) 0x5A3C00000000 0x5A3C00000000 :=
    ⟨rfl, fun size hs => by cases hs; decide, fun _ => rfl, fun h => by cases h⟩
  obtain ⟨-, hread⟩ := hm₁.read_precedence ⟨by decide, by decide⟩ (Programs.host_lawful 2)
    (Programs.host_lawful 1) (Programs.host_lawful 0) (Programs.host_serves [] 1) (Programs.host_serves [] 0)
    hoffers hmeta hname 0 rfl
  obtain ⟨-, hmembers⟩ := hread _ _ haccepts
  obtain ⟨hmember, -⟩ := hmembers rfl
  obtain ⟨-, hnull, -⟩ := hmember _ rfl
  obtain ⟨m', hrun⟩ := hnull ⟨rfl, by decide⟩
  have hentry : m₁.rawGet 2 (.string Metafield.name.id) = .int 5 :=
    (get_installed htable (by decide) (by decide)).trans (get_set_new rfl)
  exact ⟨m₁, m', hinstall, hentry ▸ hrun⟩

end Machine

end ScriptHost
