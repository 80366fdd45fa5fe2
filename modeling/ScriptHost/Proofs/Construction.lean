import ScriptHost.Proofs.Discipline
import ScriptHost.Proofs.Held

/-! # Construction

A new instance lies on the stack while the constructor of its class runs, so that no cycle queues it
before the constructor has returned. When the constructor fails the instance is left as it is: it has
its metatable, and its finalizer is due like that of any other.
-/

namespace ScriptHost

open Event (finalized)

namespace Machine

variable {m m' : Machine} {b n p slot serial : Nat} {below t t' : List Value} {v : Value}

/-- The metatable of a userdata holds a function under the field for constructors. -/
def HasConstructor (m : Machine) (slot : Nat) : Prop :=
  ∃ id f, m.strings.find? (Utf8.encode Class.constructorField) = some id ∧
    m.metaEntry (.userdata slot) id = .function f

/-- States in which the serials below a number were given out. -/
def Since (n : Nat) (m : Machine) : Prop := m.Reachable ∧ n ≤ m.heap.nextSerial

/-- A userdata whose finalizer was not entered lies above some values and below others. -/
structure Bearing (b : Nat) (below : List Value) (slot serial : Nat) (t : List Value) (m : Machine) :
    Prop where
  laid : Laid b (below ++ .userdata slot :: t) m
  held : Held below.length slot serial m

/-- The value on top is a userdata made since a serial was next. Its finalizer was not entered, and its
    constructor has returned if it has one. -/
def Constructed (n : Nat) (m : Machine) : Prop :=
  ∃ slot u, m.topValue = .userdata slot ∧ m.heap.userdata? slot = some u ∧ n ≤ u.serial ∧
    u.serial ∉ finalized m.events ∧ (m.HasConstructor slot → .constructed u.serial ∈ m.events)

theorem metaEntry_eq {mt : Nat} {id : StringId} (h : m.metatable? v = some mt) :
    m.metaEntry v id = (m.heap.table mt).get (.string id) := by
  rw [metaEntry, h]

/-- A userdata with another metatable. -/
def withMetatable (m : Machine) (slot mt : Nat) : Machine :=
  { m with heap := m.heap.modifyUserdata slot fun u => { u with metatable := some mt } }

theorem userdata?_withMetatable {u : Userdata} (hu : m.heap.userdata? slot = some u) (mt : Nat) :
    (m.withMetatable slot mt).heap.userdata? slot = some { u with metatable := some mt } := by
  rw [withMetatable, Heap.userdata?, Heap.modifyUserdata, Arena.get?_modify, if_pos rfl]
  exact congrArg (Option.map _) hu

theorem metatable?_withMetatable {u : Userdata} (hu : m.heap.userdata? slot = some u) (mt : Nat) :
    (m.withMetatable slot mt).metatable? (.userdata slot) = some mt := by
  rw [metatable?, userdata?_withMetatable hu]
  rfl

theorem heap_returnResults {position count : Nat} {wanted : Int} :
    (m.returnResults position wanted count).heap = m.heap := by
  have hguard : m.forgetDecoration.heap = m.heap := Service.forgotten.heap
  unfold returnResults resize
  dsimp only
  split_ifs <;> exact hguard

theorem events_returnResults {position count : Nat} {wanted : Int} :
    (m.returnResults position wanted count).events = m.events := by
  have hguard : m.forgetDecoration.events = m.events := by rw [forgetDecoration_eq]
  unfold returnResults resize
  dsimp only
  split_ifs <;> exact hguard

namespace Bearing

theorem of_laid (h : Bearing b below slot serial t m)
    (hl : Laid b (below ++ .userdata slot :: t') m') (heap : m'.heap = m.heap)
    (events : m'.events = m.events) : Bearing b below slot serial t' m' :=
  ⟨hl, h.held.of_eq (hl.getElem?.trans h.laid.getElem?.symm) heap events⟩

theorem push (h : Bearing b below slot serial t m) :
    Bearing b below slot serial (t ++ [v]) (m.push v) := by
  have hl := h.laid.push (v := v)
  rw [List.append_assoc, List.cons_append] at hl
  exact h.of_laid hl rfl rfl

theorem pop (h : Bearing b below slot serial (t ++ [v]) m) (hb : b ≤ below.length) :
    Bearing b below slot serial t (m.pop 1) := by
  have hl := h.laid
  rw [← List.cons_append, ← List.append_assoc] at hl
  refine h.of_laid (hl.pop ?_ rfl) rfl rfl
  rw [List.length_append]
  omega

/-- The class of the instance is found below it. -/
theorem value_class {i mt : Nat} (h : Bearing b (below ++ [.table mt]) slot serial t m)
    (hb : b ≤ below.length) (hi : b + i = below.length + 1) :
    m.value (.fromBottom i) = .table mt := by
  have hl := h.laid
  rw [List.append_assoc, List.singleton_append] at hl
  exact hl.value_fromBottom hb hi

end Bearing

end Machine

open Machine

/-! ## Calls above an instance -/

namespace Act

variable {ε α : Type} {x : Act ε α} {P : Machine → Prop} {Q : α → Machine → Prop} {host : Host}
  {m m' : Machine} {b n count position p slot serial : Nat} {below t : List Value} {v : Value}

/-- Lawful operations lead from states to states, and no serial is given out again. -/
theorem Spec.since (h : Spec (fun m => Since n m ∧ P m) x Q fun _ => True) :
    Spec (fun m => Since n m ∧ P m) x (fun a m => Since n m ∧ Q a m) fun _ => True := by
  refine ⟨h.lawful, fun hhost hm hp hrun hc => ?_, fun _ _ _ _ _ => trivial⟩
  have hruns := h.lawful.run_ok hhost hm hrun
  exact ⟨⟨hp.1.1.runs hruns, Nat.le_trans hp.1.2 hruns.moves.nextSerial_le⟩,
    h.ok hhost hm hp hrun hc⟩

/-- An operation that calls no function, followed where it succeeds. -/
theorem Spec.since_lift {x : Op ε α} (hx : x.Lawful)
    (h : ∀ {m a m'}, m.Framed → Since n m → P m → x m = .ok a m' → Q a m') :
    Spec (fun m => Since n m ∧ P m) (liftM x : Act ε α) (fun a m => Since n m ∧ Q a m)
      fun _ => True :=
  .since ⟨.lift hx, fun _ hm hp hrun _ => h hm hp.1 hp.2 hrun, fun _ _ _ _ _ => trivial⟩

/-- A function that comes to its end holds what lies below it. -/
theorem Completed.held {last : Machine} (h : Completed host position m count last)
    (hhost : host.Lawful) (hlt : position < m.stack.size) (hs : m.heap.Sound)
    (hclosed : last.closed = m.closed) (hp : p < position) (hheld : Held p slot serial m) :
    Held p slot serial last := by
  obtain ⟨s, called, f, hc, rfl, hframed, hruns⟩ := h.runs hhost hlt
  -- The handler of a value that is no function goes in at the position, above all that is held.
  have hcalled : called.heap = m.heap ∧ called.closed = m.closed ∧
      Held p slot serial (called.enterFrame f) := by
    rcases callee_spec hc with ⟨rfl, -⟩ | rfl
    · exact ⟨rfl, rfl, hheld.of_eq rfl rfl rfl⟩
    · refine ⟨rfl, rfl, hheld.of_eq ?_ rfl rfl⟩
      rw [← Array.getElem?_toList, ← Array.getElem?_toList]
      change (m.insertAt f.function _).stack.toList[p]? = _
      rw [insertAt, toList_insertIdxIfInBounds, List.getElem?_insertIdx_of_lt hp]
  obtain ⟨hheap, hopen, hheld⟩ := hcalled
  exact hruns.held hframed (show called.heap.Sound from hheap ▸ hs) (hclosed.trans hopen.symm) (by simp)
    (Nat.lt_succ_of_lt hp) hheld

/-- A call above an instance leaves it there. -/
theorem call_bearing (hb : b ≤ below.length) :
    Spec (fun m => Since n m ∧ ∃ t, Bearing b below slot serial t m ∧ count < t.length)
      (call count 0) (fun _ m => Since n m ∧ ∃ t, Bearing b below slot serial t m) fun _ => True := by
  refine .since ⟨call_lawful _ _, fun {host m _ m'} hhost hm ⟨hsince, t, hbearing, hcount⟩ hrun hclosed => ?_,
    fun _ _ _ _ _ => trivial⟩
  -- The function lies above the instance, maybe with other values in between.
  obtain ⟨between, v, args, rfl, hargs⟩ : ∃ between v args, t = between ++ v :: args ∧
      args.length = count := by
    have hlt : t.length - (count + 1) < t.length := by omega
    refine ⟨t.take (t.length - (count + 1)), t[t.length - (count + 1)],
      t.drop (t.length - (count + 1) + 1), ?_, ?_⟩
    · rw [← List.drop_eq_getElem_cons hlt, List.take_append_drop]
    · rw [List.length_drop]
      omega
  have hl := hbearing.laid
  rw [← List.cons_append, ← List.append_assoc] at hl
  generalize hposition : (below ++ .userdata slot :: between) = under at hl
  have hunder : below.length < under.length := by
    rw [← hposition, List.length_append, List.length_cons]
    omega
  rw [← hargs] at hrun
  obtain ⟨results, hl', -⟩ := (call_spec (by omega)).ok hhost hm hl hrun hclosed
  rw [call_position (functionBelow?_laid hl (by omega)), callAt] at hrun
  obtain ⟨count, last, hcompleted, rfl⟩ := invoke_ok hrun
  rw [closed_returnResults] at hclosed
  have hlast := hcompleted.held hhost (by rw [hl.size, List.length_append, List.length_cons]; omega)
    hsince.1.heap_sound hclosed hunder hbearing.held
  subst hposition
  rw [List.append_assoc, List.cons_append] at hl'
  exact ⟨between ++ results, hl', hl'.getElem?, heap_returnResults.symm ▸ hlast.userdata,
    events_returnResults.symm ▸ hlast.fresh⟩

/-! ## Instances -/

theorem rawGetField_eq {i : StackIndex} {mt : Nat} {name : String} (h : m.value i = .table mt) :
    let found := m.intern (Utf8.encode name)
    let v := (m.heap.table mt).get (.string found.1)
    Op.rawGetField i name m = .ok v.kind (found.2.push v) := by
  rw [Op.rawGetField, Op.run_bind, Op.tableAt_eq h]
  rfl

/-- A field whose name is known is read without a trace. -/
theorem rawGetField_found {i : StackIndex} {mt : Nat} {id : StringId} {name : String}
    (h : m.value i = .table mt) (hm : m.strings.Sound)
    (hid : m.strings.strings[id]? = some (Utf8.encode name)) :
    let v := (m.heap.table mt).get (.string id)
    Op.rawGetField i name m = .ok v.kind (m.push v) := by
  have hsame : m.intern (Utf8.encode name) = (id, m) := by
    rw [intern, StringPool.intern_again hm hid]
  rw [rawGetField_eq h, hsame]

/-- Only tables have fields. -/
theorem rawGetField_table {i : StackIndex} {name : String} {kind : ValueKind}
    (h : Op.rawGetField i name m = .ok kind m') : ∃ mt, m.value i = .table mt := by
  by_contra hnone
  rw [Op.rawGetField, Op.run_bind, Op.tableAt_error fun mt hmt => hnone ⟨mt, hmt⟩] at h
  cases h

theorem newUserdata_bearing (size : Nat) :
    Spec (fun m => Since n m ∧ Laid b below m) (newUserdata size : Act ε Address)
      (fun _ m => Since n m ∧ ∃ slot serial, n ≤ serial ∧ Bearing b below slot serial [] m)
      fun _ => True := by
  refine .bind (.since ((collectIfDue_spec below _).pre fun _ h => h.2)) fun _ => .since
    (.modifyGet (fun _ => (leads_heap (.newUserdata _)).trans leads_push) fun m _ ⟨hsince, hl⟩ => ?_)
  have hl' : Laid b below { m with heap := (m.heap.newUserdata size).2 } := hl.of_eq rfl rfl
  have hpushed := hl'.push (v := .userdata (m.heap.newUserdata size).1)
  have hmade := Heap.newUserdata_userdata? size (m.heap.newUserdata size).1 hsince.1.heap_sound
  rw [if_pos rfl] at hmade
  refine ⟨_, _, hsince.2, hpushed, hpushed.getElem?, ⟨_, hmade, rfl⟩, fun hin => ?_⟩
  obtain ⟨s, hs⟩ := Event.mem_finalized.mp hin
  exact Nat.lt_irrefl _ (hsince.1.recorded.lt hs)

theorem setMetatable_eq {i : StackIndex} {mt : Nat} (hclass : m.topValue = .table mt)
    (hinstance : m.value (m.absolute i) = .userdata slot) :
    Op.setMetatable i m = .ok () ((m.withMetatable slot mt).pop 1) := by
  rw [Op.setMetatable, Op.run_bind, Op.run_get]
  simp only [hclass, hinstance]
  rfl

/-- The value on top becomes the metatable of the instance below it. -/
theorem setMetatable_bearing {i mt : Nat} (hb : b ≤ below.length) (hi : b + i = below.length + 1) :
    Spec (fun m => Since n m ∧ Bearing b below slot serial [.table mt] m)
      (liftM (Op.setMetatable (.fromBottom i)) : Act ScriptError Unit)
      (fun _ m => Since n m ∧ Bearing b below slot serial [] m ∧
        m.metatable? (.userdata slot) = some mt) fun _ => True := by
  refine .since_lift (Op.setMetatable_lawful _) fun {m _ m'} _ _ hbearing hrun => ?_
  have hclass : m.topValue = .table mt := by
    have hl := hbearing.laid
    rw [List.append_cons] at hl
    exact hl.value_fromTop (by rw [List.length_append]; omega) rfl
  have hinstance : m.value (m.absolute (.fromBottom i)) = .userdata slot :=
    hbearing.laid.value_fromBottom hb hi
  rw [setMetatable_eq hclass hinstance] at hrun
  obtain ⟨-, rfl⟩ := EStateM.Result.ok.inj hrun
  obtain ⟨u, hu, rfl⟩ := hbearing.held.userdata
  have hclassed : Bearing b below slot u.serial [.table mt] (m.withMetatable slot mt) :=
    ⟨hbearing.laid.of_eq rfl rfl, hbearing.held.stack, ⟨_, userdata?_withMetatable hu mt, rfl⟩,
      hbearing.held.fresh⟩
  exact ⟨hclassed.pop hb, metatable?_withMetatable hu mt⟩

/-- What the class holds for a constructor lies above the instance. -/
theorem constructor_bearing {i mt : Nat} (hb : b ≤ below.length) (hi : b + i = below.length + 1) :
    Spec (fun m => Since n m ∧ Bearing b (below ++ [.table mt]) slot serial [] m ∧
        m.metatable? (.userdata slot) = some mt)
      (liftM (Op.rawGetField (.fromBottom i) Class.constructorField) : Act ScriptError ValueKind)
      (fun kind m => Since n m ∧ ∃ v, Bearing b (below ++ [.table mt]) slot serial [v] m ∧
        (m.HasConstructor slot → kind = .function)) fun _ => True := by
  refine .since_lift (Op.rawGetField_lawful _ _) fun {m kind m'} _ hsince ⟨hbearing, hmt⟩ hrun => ?_
  rw [rawGetField_eq (hbearing.value_class hb hi)] at hrun
  obtain ⟨rfl, rfl⟩ := EStateM.Result.ok.inj hrun
  have hnamed : Bearing b (below ++ [.table mt]) slot serial []
      (m.intern (Utf8.encode Class.constructorField)).2 :=
    hbearing.of_laid (hbearing.laid.of_eq rfl rfl) rfl rfl
  refine ⟨_, hnamed.push, fun ⟨id, f, hid, hentry⟩ => ?_⟩
  -- Looking the field up interns its name, which then is the one the class was asked for.
  obtain rfl := Option.some.inj ((StringPool.find?_intern hsince.1.named.sound).symm.trans hid)
  have hfound : (m.heap.table mt).get (.string (m.intern (Utf8.encode Class.constructorField)).1) =
      .function f := (metaEntry_eq hmt).symm.trans hentry
  exact congrArg Value.kind hfound

theorem constructed_pushAt {i : Nat} (h : Bearing b below slot serial t m) (hb : b ≤ below.length)
    (hi : b + i = below.length + 1) (hn : n ≤ serial)
    (hdone : m.HasConstructor slot → .constructed serial ∈ m.events) :
    (m.pushAt (.fromBottom i)).Constructed n := by
  have hvalue := h.laid.value_fromBottom hb hi
  have htop : (m.pushAt (.fromBottom i)).topValue = .userdata slot := by
    refine (h.laid.push).value_fromTop (t := []) ?_ rfl |>.trans hvalue
    rw [List.length_append]
    omega
  obtain ⟨u, hu, rfl⟩ := h.held.userdata
  exact ⟨slot, u, htop, hu, hn, h.held.fresh, hdone⟩

theorem noteConstructed_bearing {i : Nat} (h : Bearing b below slot serial t m)
    (hb : b ≤ below.length) (hi : b + i = below.length + 1) :
    Bearing b below slot serial t (m.noteConstructed (.fromBottom i)) ∧
      .constructed serial ∈ (m.noteConstructed (.fromBottom i)).events := by
  obtain ⟨u, hu, rfl⟩ := h.held.userdata
  rw [noteConstructed, h.laid.value_fromBottom hb hi]
  simp only [note_eq, hu]
  exact ⟨⟨h.laid.of_eq rfl rfl, h.held.stack, ⟨u, hu, rfl⟩, h.held.fresh⟩, List.mem_cons_self⟩

/-- Values may be pushed above an instance. -/
theorem pushes_bearing {f : Nat → StackIndex} (k : Nat) (l : List Nat) :
    Spec (fun m => Since n m ∧ ∃ t, Bearing b below slot serial t m ∧ t.length = k)
      (l.forM fun i => modify (·.pushAt (f i)) : Act ε PUnit)
      (fun _ m => Since n m ∧ ∃ t, Bearing b below slot serial t m ∧ t.length = k + l.length)
      fun _ => True := by
  induction l generalizing k with
  | nil => exact .pure fun _ => id
  | cons i l ih =>
      have hlength : k + (i :: l).length = k + 1 + l.length := by
        rw [List.length_cons]
        omega
      rw [hlength]
      refine .bind (.since (.modify (fun _ => leads_pushAt) fun m _ ⟨_, t, h, hk⟩ => ?_)) fun _ =>
        ih (k + 1)
      exact ⟨_, h.push, by rw [List.length_append, hk, List.length_singleton]⟩

/-- When the call of a constructor is done, it has returned for the instance below it. -/
theorem callConstructor_bearing {i : Nat} (n slot serial count : Nat) (hb : b ≤ below.length)
    (hi : b + i = below.length + 1) :
    Spec (fun m => Since n m ∧ ∃ v, Bearing b below slot serial [v] m)
      (callConstructor count (.fromBottom i))
      (fun _ m => Since n m ∧ ∃ t, Bearing b below slot serial t m ∧ .constructed serial ∈ m.events)
      fun _ => True := by
  have hinstance : Spec (fun m => Since n m ∧ ∃ v, Bearing b below slot serial [v] m)
      (modify (·.pushAt (.fromBottom i)) : Act ScriptError PUnit)
      (fun _ m => Since n m ∧ ∃ t, Bearing b below slot serial t m ∧ t.length = 2) fun _ => True :=
    .since (.modify (fun _ => leads_pushAt) fun _ _ ⟨_, v, h⟩ => ⟨_, h.push, rfl⟩)
  refine .bind hinstance fun _ => .bind (pushes_bearing 2 _) fun _ =>
    .bind (.pre (call_bearing hb) ?_) fun _ => .since (.modify (fun _ => leads_noteConstructed)
      fun _ _ ⟨_, t, h⟩ => ⟨t, noteConstructed_bearing h hb hi⟩)
  rintro m ⟨hsince, t, h, hlength⟩
  rw [List.length_range] at hlength
  exact ⟨hsince, t, h, by omega⟩

/-- The constructor of an instance, if its class has one, has returned when the instance is pushed. -/
theorem construct_spec {i mt : Nat} (count : Nat) (hb : b ≤ below.length)
    (hi : b + i = below.length + 1) :
    Spec (fun m => Since n m ∧ ∃ slot serial, n ≤ serial ∧
        Bearing b (below ++ [.table mt]) slot serial [] m)
      (construct count (.fromBottom i)) (fun _ m => Since n m ∧ m.Constructed n) fun _ => True := by
  refine .get_bind (construct_lawful _ _) fun m _ ⟨hsince, slot, serial, hn, hbearing⟩ => ?_
  have hlength : (below ++ [Value.table mt]).length = below.length + 1 := List.length_append
  have hb' : b ≤ (below ++ [Value.table mt]).length := by omega
  have hi' : b + m.top = (below ++ [Value.table mt]).length + 1 := by
    rw [hbearing.laid.top, List.length_append, List.length_singleton]
    omega
  have hclass : Spec (fun m => Since n m ∧ Bearing b (below ++ [.table mt]) slot serial [] m)
      (modify (·.pushAt (.fromBottom i)) : Act ScriptError PUnit)
      (fun _ m => Since n m ∧ Bearing b (below ++ [.table mt]) slot serial [.table mt] m)
      fun _ => True :=
    .since (.modify (fun _ => leads_pushAt) fun m _ ⟨_, h⟩ => by
      rw [Machine.pushAt, h.value_class hb hi]
      exact h.push)
  have hcreated : Spec (fun m => Since n m ∧ ∃ t, Bearing b (below ++ [.table mt]) slot serial t m ∧
        (m.HasConstructor slot → .constructed serial ∈ m.events))
      (modify (·.pushAt (.fromBottom m.top)) : Act ScriptError PUnit)
      (fun _ m => Since n m ∧ m.Constructed n) fun _ => True :=
    .since (.modify (fun _ => leads_pushAt) fun _ _ ⟨_, t, h, hdone⟩ => constructed_pushAt h hb' hi' hn hdone)
  refine .bind (hclass.pre fun _ h => h ▸ ⟨hsince, hbearing⟩) fun _ =>
    .bind (setMetatable_bearing hb' hi') fun _ => .bind (constructor_bearing hb hi) fun kind => ?_
  split
  · refine .bind (.pre (callConstructor_bearing n slot serial count hb' hi') ?_) fun _ => hcreated.pre ?_
    · exact fun _ ⟨hsince, v, h, _⟩ => ⟨hsince, v, h⟩
    · exact fun _ ⟨hsince, t, h, hdone⟩ => ⟨hsince, t, h, fun _ => hdone⟩
  · rename_i hkind
    refine .bind (.since (.modify (fun _ => leads_pop) fun _ _ ⟨_, v, h, hconstructor⟩ => ?_)) fun _ =>
      hcreated
    exact ⟨[], h.pop hb', fun h => absurd (hconstructor h) hkind⟩

/-- An instance of the class on top is pushed. -/
theorem instantiate_spec (n count : Nat) :
    Spec (fun m => Since n m ∧ ∃ b below, b ≤ below.length ∧ Pushed b below m)
      (instantiate count) (fun _ m => Since n m ∧ m.Constructed n) fun _ => True := by
  refine .get_bind (instantiate_lawful _) fun m _ ⟨hsince, b, below, hb, v, hl⟩ => ?_
  have hi : b + m.top = below.length + 1 := by
    rw [hl.top, List.length_append, List.length_singleton]
    omega
  have hsize : Spec (fun m => Since n m ∧ Laid b (below ++ [v]) m)
      (liftM (Op.rawGetField (.fromBottom m.top) Class.sizeField) : Act ScriptError ValueKind)
      (fun _ m => Since n m ∧ ∃ mt, Pushed b (below ++ [.table mt]) m) fun _ => True := by
    refine .since_lift (Op.rawGetField_lawful _ _) fun {m _ m'} _ _ hl hrun => ?_
    obtain ⟨mt, hclass⟩ := rawGetField_table hrun
    obtain rfl : v = .table mt := (hl.value_fromBottom (t := []) hb hi).symm.trans hclass
    rw [rawGetField_eq hclass] at hrun
    obtain ⟨-, rfl⟩ := EStateM.Result.ok.inj hrun
    have hnamed : Laid b (below ++ [.table mt]) (m.intern (Utf8.encode Class.sizeField)).2 :=
      hl.of_eq rfl rfl
    exact ⟨mt, _, hnamed.push⟩
  have hpop : Spec (fun m => Since n m ∧ ∃ mt, Pushed b (below ++ [.table mt]) m)
      (modify (·.pop 1) : Act ScriptError PUnit)
      (fun _ m => Since n m ∧ ∃ mt, Laid b (below ++ [.table mt]) m) fun _ => True :=
    .since (.modify (fun _ => leads_pop) fun _ _ ⟨_, mt, w, hl⟩ =>
      ⟨mt, hl.pop (by rw [List.length_append]; omega) rfl⟩)
  exact .bind (hsize.pre fun _ h => h ▸ ⟨hsince, hl⟩) fun _ => .bind .get fun _ =>
    .bind hpop fun _ => .pre (P := fun m => ∃ mt, Since n m ∧ Laid b (below ++ [.table mt]) m)
      (.exists_pre fun mt => .bind (newUserdata_bearing _) fun _ => construct_spec count hb hi)
      fun _ ⟨h, mt, hl⟩ => ⟨mt, h, hl⟩

/-- What `class.New` gives back is an instance, and its constructor has returned. -/
theorem classNew_spec (n : Nat) :
    Spec (Since n) classNew (fun _ m => m.Constructed n) fun _ => True := by
  have hname : Spec (Since n) (liftM (Op.checkText 1) : Act ScriptError String)
      (fun _ m => Since n m ∧ True) fun _ => True :=
    .pre (.since_lift (P := fun _ => True) (Op.checkText_lawful _) fun _ _ _ _ => trivial)
      fun _ h => ⟨h, trivial⟩
  have hclass : ∀ name, Spec (fun m => Since n m ∧ True)
      (liftM (Op.getRegistered name) : Act ScriptError ValueKind)
      (fun _ m => Since n m ∧ ∃ b below, b ≤ below.length ∧ Pushed b below m) fun _ => True :=
    fun name => .since_lift (Op.getRegistered_lawful _) fun {m _ m'} hm _ _ hrun => by
      rw [Op.getRegistered, rawGetField_eq rfl] at hrun
      obtain ⟨-, rfl⟩ := EStateM.Result.ok.inj hrun
      have hnamed : Laid m.base m.stack.toList (m.intern (Utf8.encode name)).2 := ⟨rfl, rfl⟩
      exact ⟨_, _, by rw [Array.length_toList]; exact hm, _, hnamed.push⟩
  have hmade : ∀ count, Spec (fun m => Since n m ∧ ∃ b below, b ≤ below.length ∧ Pushed b below m)
      (do
        instantiate count
        pure 1) (fun _ m => m.Constructed n) fun _ => True :=
    fun count => .bind (instantiate_spec n count) fun _ => .pure fun _ h => h.2
  refine .bind hname fun name => .bind .get fun _ => .bind (hclass name) fun _ => ?_
  exact .ite (.bind (.lift (.fail _) fun _ _ _ => trivial) fun _ => hmade _) (hmade _)

end Act

namespace Machine

open Act

variable {host : Host} {m m' : Machine} {count : Nat}

/-- An event that is not in a log comes after all of it. -/
theorem suffix_earlier {e : Event} {later earlier added log : List Event}
    (h : later ++ e :: earlier = added ++ log) (he : e ∉ log) : log <:+ earlier := by
  rcases List.append_eq_append_iff.mp h with ⟨rest, -, hrest⟩ | ⟨rest, -, hrest⟩
  · cases rest with
    | nil =>
        rw [List.nil_append] at hrest
        exact absurd (hrest ▸ List.mem_cons_self) he
    | cons e' rest =>
        obtain ⟨-, rfl⟩ := List.cons.inj hrest
        exact List.suffix_append rest log
  · exact absurd (hrest ▸ List.mem_append_right rest List.mem_cons_self) he

/-- An instance that `class.New` gave back was made in that call, and if its class has a constructor
    then that has returned before the finalizer of the instance is entered: during the call, in a
    cycle later on, or when the machine is closed. A constructor that fails or closes the machine has
    not returned; the instance that it leaves behind has its metatable nevertheless. -/
theorem Reachable.constructed_first (hm : m.Reachable) (hhost : host.Lawful)
    (hrun : classNew host m = .ok count m') (hclosed : m'.closed = m.closed) :
    ∃ slot u, m'.topValue = .userdata slot ∧ m'.heap.userdata? slot = some u ∧
      m.heap.nextSerial ≤ u.serial ∧
      (m'.HasConstructor slot → ∀ m'', Moves m' m'' → ∀ later s earlier,
        m''.events = later ++ .finalizing s u.serial :: earlier →
          .constructed u.serial ∈ earlier) := by
  obtain ⟨slot, u, htop, hu, hserial, hfresh, hdone⟩ :=
    (classNew_spec m.heap.nextSerial).ok hhost hm.framed ⟨hm, Nat.le_refl _⟩ hrun hclosed
  refine ⟨slot, u, htop, hu, hserial, fun hconstructor m'' hmoves later s earlier hevents => ?_⟩
  obtain ⟨added, hadded⟩ := hmoves.log
  have hnot : .finalizing s u.serial ∉ m'.events := fun hin =>
    hfresh (Event.mem_finalized.mpr ⟨s, hin⟩)
  exact (suffix_earlier (hevents.symm.trans hadded) hnot).subset (hdone hconstructor)

theorem get_set_new {id : StringId} {v : Value} (hv : v.isNil = false) :
    (({} : Table).set (.string id) v).get (.string id) = v := by
  simp [Table.set, Table.get, Table.storeEntry, Table.overwriteValue?, Table.entryValue, hv]

/-- The number of the name of a class in a machine that has just one function. -/
def className : StringId := ((withFunction (.program "f")).intern (Utf8.encode "P")).1

/-- The number of the field for its constructor. -/
def classField : StringId :=
  ((withFunction (.program "f")).intern (Utf8.encode "P")).2.intern (Utf8.encode Class.constructorField) |>.1

/-- A new machine with a class that has a function as its constructor, and the name of the class on
    the stack. -/
def classed : Machine :=
  let (name, m) := (withFunction (.program "f")).intern (Utf8.encode "P")
  let (field, m) := m.intern (Utf8.encode Class.constructorField)
  let m := { m with heap := m.heap.newTable.2 }
  let m := m.setEntry 2 (.string field) (.function 0)
  (m.setEntry 0 (.string name) (.table 2)).push (.string name)

theorem classed_reachable : classed.Reachable := by
  have hfunction := withFunction_reachable (.program "f")
  exact hfunction.runs (leads_intern.trans (leads_intern.trans ((leads_heap .newTable).trans
    (leads_setEntry.trans (leads_setEntry.trans leads_push)))) hfunction.framed)

/-- The machine when the block is made: its size does not matter. -/
def classedBlock (size : Nat) : Machine :=
  { (classed.intern (Utf8.encode Class.sizeField)).2 with
    stack := #[.string className, .table 2, .userdata 0]
    heap := (classed.heap.newUserdata size).2 }

/-- A constructor that does nothing returns, and is gone with its arguments. -/
theorem callConstructor_idle {v w : Value} {origin : Origin} {upvalues : Array Value}
    (hstack : m.stack = #[v, w, .userdata 0, .function 0]) (hframes : m.frames = [])
    (hguards : m.guards = []) (hlimits : m.limits = {})
    (hf : m.heap.function? 0 = some { body := { behaviour := .code (.program "f"), origin }, upvalues }) :
    callConstructor 1 (.fromBottom 3) (Programs.host [] 1) m =
      .ok () ({ m with stack := #[v, w, .userdata 0] }.noteConstructed (.fromBottom 3)) := by
  obtain ⟨stack, frames, heap, strings, registry, globals, cache, guards, limits, callSite, closed,
    destroyed, names, events, journal⟩ := m
  dsimp only at hstack hframes hguards hlimits hf
  subst hstack hframes hguards hlimits
  refine (bind_ok run_modify).trans ((bind_ok run_pure).trans ((bind_ok (a := ()) ?_).trans run_modify))
  rw [call_position rfl, callAt, invoke_eq, if_neg (by exact Bool.false_ne_true),
    callee_function rfl]
  dsimp only [Machine.pushAt, Machine.push]
  rw [hf]
  rfl

/-- The function that is the constructor gives back the instance. -/
theorem construct_classedBlock (size : Nat) :
    ∃ m', construct 1 (.fromBottom 2) (Programs.host [] 1) (classedBlock size) = .ok () m' ∧
      m'.closed = false ∧ m'.topValue = .userdata 0 ∧ m'.HasConstructor 0 := by
  have hsound : (classedBlock size).strings.Sound :=
    StringPool.intern_sound classed_reachable.named.sound
  have hname : (classedBlock size).strings.strings[classField]? =
      some (Utf8.encode Class.constructorField) :=
    StringPool.intern_keeps StringPool.intern_found
  let m : Machine := (((classedBlock size).push (.table 2)).withMetatable 0 2).pop 1
  have hfound : (m.heap.table 2).get (.string classField) = .function 0 := get_set_new rfl
  have hfield : Op.rawGetField (.fromBottom 2) Class.constructorField m =
      .ok .function (m.push (.function 0)) := by
    have hread := rawGetField_found (m := m) (i := .fromBottom 2) rfl hsound hname
    rw [hfound] at hread
    exact hread
  have hcalled : callConstructor 1 (.fromBottom 3) (Programs.host [] 1) (m.push (.function 0)) =
      .ok () (m.noteConstructed (.fromBottom 3)) :=
    callConstructor_idle rfl rfl rfl rfl rfl
  refine ⟨(m.noteConstructed (.fromBottom 3)).push (.userdata 0), ?_, rfl, rfl, classField, 0, ?_, ?_⟩
  · exact (bind_ok run_get).trans ((bind_ok run_modify).trans ((bind_ok (setMetatable_eq rfl rfl)).trans
      ((bind_ok hfield).trans ((bind_ok hcalled).trans run_modify))))
  · exact (StringPool.find?_eq_some hsound).mpr hname
  · have hclass : (m.noteConstructed (.fromBottom 3)).metatable? (.userdata 0) = some 2 := rfl
    exact (metaEntry_eq hclass).trans hfound

/-- `class.New` of the class succeeds. -/
theorem classNew_classed : ∃ m', classNew (Programs.host [] 1) classed = .ok 1 m' ∧
    m'.closed = false ∧ m'.topValue = .userdata 0 ∧ m'.HasConstructor 0 := by
  have hsound := classed_reachable.named.sound
  have hname : classed.strings.strings[className]? = some (Utf8.encode "P") :=
    StringPool.intern_keeps StringPool.intern_found
  have htext : Op.checkText 1 classed = .ok "P" classed := by
    change EStateM.Result.ok (Utf8.decodeLossy (classed.strings.get className)) classed = _
    rw [StringPool.get, hname, show Utf8.decodeLossy _ = "P" by decide +kernel]
  have hclass : Op.getRegistered "P" classed = .ok .table (classed.push (.table 2)) := by
    have hfound : (classed.heap.table classed.registry).get (.string className) = .table 2 :=
      get_set_new rfl
    rw [Op.getRegistered, rawGetField_found rfl hsound hname, hfound]
    rfl
  obtain ⟨size, hblock⟩ : ∃ size, instantiate 1 (Programs.host [] 1) (classed.push (.table 2)) =
      construct 1 (.fromBottom 2) (Programs.host [] 1) (classedBlock size) := ⟨_, rfl⟩
  obtain ⟨m', hconstruct, hmade⟩ := construct_classedBlock size
  refine ⟨m', ?_, hmade⟩
  refine (bind_ok htext).trans ((bind_ok run_get).trans ((bind_ok hclass).trans ?_))
  exact (bind_ok (hblock.trans hconstruct)).trans rfl

theorem classed_constructed_first : ∃ m', classNew (Programs.host [] 1) classed = .ok 1 m' ∧
    ∃ slot u, m'.topValue = .userdata slot ∧ m'.heap.userdata? slot = some u ∧
      ∀ m'', Moves m' m'' → ∀ later s earlier,
        m''.events = later ++ .finalizing s u.serial :: earlier →
          .constructed u.serial ∈ earlier := by
  obtain ⟨m', hrun, hclosed, htop, hconstructor⟩ := classNew_classed
  obtain ⟨slot, u, htop', hu, -, hfirst⟩ :=
    classed_reachable.constructed_first (Programs.host_lawful 1) hrun hclosed
  obtain rfl : slot = 0 := by simpa using htop'.symm.trans htop
  exact ⟨m', hrun, 0, u, htop, hu, hfirst hconstructor⟩

end Machine

end ScriptHost
