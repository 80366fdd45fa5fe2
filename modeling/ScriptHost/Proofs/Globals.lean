import Mathlib.Data.List.TakeWhile
import ScriptHost.Proofs.Resolution
import ScriptHost.Proofs.Spec.Class

/-! # What globals leave on the stack

A global of a dotted name is read along all its segments, and assigned as the field that the last of them
names of what the others lead to. However the way there ends, reading pushes one value or leaves the stack
alone. Assigning takes its value off; a name without a dot is the exception, for if its assignment fails the
value stays, above its key.
-/

namespace ScriptHost

namespace Path

variable {name : String} {before after : List Char}

theorem split_eq (cs : List Char) : split cs = cs.splitOn '.' := by
  induction cs with
  | nil => rfl
  | cons c cs ih =>
      obtain ⟨segment, segments, h⟩ := List.exists_cons_of_ne_nil (List.splitOn_ne_nil '.' cs)
      rw [split, ih, List.splitOn_cons_eq_if_modifyHead, h]
      simp only [beq_iff_eq, List.modifyHead_cons]

theorem segments_of_notMem (h : '.' ∉ name.toList) : segments name = [name] := by
  rw [segments, split_eq, List.splitOn_eq_singleton h, List.map_singleton, String.ofList_toList]

theorem splitLast_of_notMem (h : '.' ∉ name.toList) : splitLast name = none := by
  have hdrop : name.toList.reverse.dropWhile (· ≠ '.') = [] := by
    refine List.dropWhile_eq_nil_iff.mpr fun c hc => ?_
    have hne : c ≠ '.' := fun heq => h (heq ▸ List.mem_reverse.mp hc)
    exact decide_eq_true hne
  simp only [splitLast, hdrop]

theorem splitLast_of_dot (hname : name.toList = before ++ '.' :: after) (hafter : '.' ∉ after) :
    splitLast name = some (String.ofList before, String.ofList after) := by
  have hrest : ∀ c ∈ after.reverse, decide (c ≠ '.') = true := fun c hc =>
    decide_eq_true fun heq => hafter (heq ▸ List.mem_reverse.mp hc)
  have hreverse : name.toList.reverse = after.reverse ++ '.' :: before.reverse := by simp [hname]
  have hdrop : name.toList.reverse.dropWhile (· ≠ '.') = '.' :: before.reverse := by
    rw [hreverse, List.dropWhile_append_of_pos hrest]
    rfl
  have htake : name.toList.reverse.takeWhile (· ≠ '.') = after.reverse := by
    rw [hreverse, List.takeWhile_append_of_pos hrest, List.takeWhile_cons_of_neg (by decide), List.append_nil]
  simp only [splitLast, hdrop, htake, List.reverse_reverse]

/-- Cutting at the last dot, if there is one, cuts off the last segment. -/
theorem splitLast_cases (name : String) :
    '.' ∉ name.toList ∧ splitLast name = none ∧ segments name = [name] ∨
    '.' ∈ name.toList ∧ ∃ path field, splitLast name = some (path, field) ∧
      segments name = segments path ++ [field] := by
  by_cases hdot : '.' ∈ name.toList
  · obtain ⟨after, before, hreverse, hafter⟩ := List.eq_append_cons_of_mem (List.mem_reverse.mpr hdot)
    have hname : name.toList = before.reverse ++ '.' :: after.reverse := by
      rw [← List.reverse_reverse name.toList, hreverse]
      simp
    have hlast : '.' ∉ after.reverse := fun hin => hafter (List.mem_reverse.mp hin)
    refine .inr ⟨hdot, _, _, splitLast_of_dot hname hlast, ?_⟩
    rw [segments, segments, split_eq, split_eq, hname, List.splitOn_append_cons_self, List.splitOn_eq_singleton hlast,
      List.map_append, List.map_singleton, String.toList_ofList]
  · exact .inl ⟨hdot, splitLast_of_notMem hdot, segments_of_notMem hdot⟩

end Path

namespace Act

open Machine

variable {b : Nat} {s : List Value} {v : Value}

/-- The value is taken off, or stays above a key if there was no dot in the name. -/
theorem setGlobal_spec (name : String) (hb : b ≤ s.length) :
    Spec (Laid b (s ++ [v])) (setGlobal name) (fun _ => Laid b s) fun m =>
      if '.' ∈ name.toList then Laid b s m else ∃ key, Over b (s ++ [key, v]) m := by
  have hlawful := setGlobal_lawful name
  rw [setGlobal] at hlawful ⊢
  rcases Path.splitLast_cases name with ⟨hdot, hsplit, -⟩ | ⟨hdot, path, field, hsplit, -⟩ <;>
    rw [hsplit] at hlawful ⊢
  · simp only [if_neg hdot]
    exact setField_spec .environment name hb
  · simp only [if_pos hdot]
    refine .get_bind hlawful fun m _ hm => ?_
    have hassign : Spec (· = m) (do
        let _ ← getGlobal path
        Op.insert (.fromTop 2)
        setField (.fromTop 2) field : Act ScriptError Unit) (fun _ => Pushed b s) (Over b s) := by
      refine .bind (((getGlobal_spec path (s ++ [v])).pre fun _ h => h ▸ hm).post (fun _ _ => id)
        fun _ hl => hl.over) fun _ => .exists_pre fun w => ?_
      refine .bind (insert_spec (s := s) (t := [v]) fun m hl => ?_) fun _ => ?_
      · rw [List.append_assoc] at hl
        exact hl.position_fromTop hb rfl
      · rw [List.append_cons]
        refine (setField_spec (.fromTop 2) field ?_).post (fun _ _ hl => ⟨w, hl⟩)
          fun _ ⟨_, h⟩ => h.below.below
        rw [List.length_append]
        omega
    refine .bind (.attempt hassign) fun r => ?_
    cases r with
    | ok _ => exact .modify (fun _ => leads_pop) fun _ _ hp => hp.pop hb
    | error e =>
        refine .bind (Q := fun _ => Laid b s) (.modify (fun _ => leads_setTop) fun _ _ hl => ?_)
          fun _ => .throw fun _ => id
        refine hl.setTop ?_
        rw [hm.top, List.length_append, List.length_singleton]
        omega

/-! ## An assignment by name -/

variable {host : Host} {m : Machine} {w : Value} {i : StackIndex} {name : String}

/-- The value on top goes below the next one. -/
theorem insert_push (hm : m.Framed) :
    Op.insert (.fromTop 2) ((m.push v).push w) = .ok () ((m.push w).push v) := by
  have hb : m.base ≤ m.stack.toList.length := by
    rw [Array.length_toList]
    exact hm
  have hl : Laid m.base (m.stack.toList ++ [v] ++ [w]) ((m.push v).push w) :=
    Laid.push (Laid.push ⟨rfl, rfl⟩)
  have hposition : ((m.push v).push w).position? (.fromTop 2) = some m.stack.toList.length :=
    Laid.position_fromTop (t := [w]) (by rwa [List.append_assoc] at hl) hb rfl
  have hsunk : ((m.push v).push w).sinkTop m.stack.toList.length = (m.push w).push v := by
    have hstack := hl.sinkTop.stack
    unfold sinkTop at hstack ⊢
    rw [show ((m.push v).push w).stack.back? = some w by simp [push]] at hstack ⊢
    refine congrArg (fun stack => { m with stack }) (Array.toList_inj.mp (hstack.trans ?_))
    simp [push]
  rw [Op.insert, Op.run_bind, Op.position_eq, hposition]
  dsimp only
  rw [Op.run_modify, hsunk]

/-- The name goes below the value that is assigned to it. -/
theorem setField_eq (hm : m.Framed) : setField i name host (m.push v) =
    setTable ((m.push v).absolute i) host
      (((m.intern (Utf8.encode name)).2.push (.string (m.intern (Utf8.encode name)).1)).push v) := by
  have hinsert := insert_push (m := (m.intern (Utf8.encode name)).2) (v := v)
    (w := .string (m.intern (Utf8.encode name)).1) hm
  rw [setField, run_bind, run_get]
  dsimp only
  rw [run_bind, run_modify]
  dsimp only
  exact bind_ok (run_lift.trans hinsert)

end Act

namespace Machine

open Act

variable {m : Machine} {host : Host} {s : Array Value} {v : Value}

/-- Whatever metatables and native functions decide on the way, as long as nothing closes the machine: reading
    a global adds one value, or leaves the stack as it was; assigning one takes the value off. When it fails
    it still does so for a name with a dot, but for a name without one the value stays, above its key. -/
theorem Reachable.global_stack (hm : m.Reachable) (hhost : host.Lawful) (name : String) :
    (∀ kind m', getGlobal name host m = .ok kind m' → m'.closed = m.closed → ∃ w, m'.stack = m.stack.push w) ∧
    (∀ e m', getGlobal name host m = .error e m' → m'.closed = m.closed → m'.stack = m.stack) ∧
    ∀ s v, m.stack = s.push v → m.base ≤ s.size →
      (∀ m', setGlobal name host m = .ok () m' → m'.closed = m.closed → m'.stack = s) ∧
      ∀ e m', setGlobal name host m = .error e m' → m'.closed = m.closed →
        ('.' ∈ name.toList → m'.stack = s) ∧
        ('.' ∉ name.toList → ∃ key, s.toList ++ [key, v] <+: m'.stack.toList) := by
  have hread := getGlobal_spec (b := m.base) name m.stack.toList
  refine ⟨fun kind m' hrun hc => ?_, fun e m' hrun hc => ?_, fun s v hstack hs => ?_⟩
  · obtain ⟨w, hl⟩ := hread.ok hhost hm.framed ⟨rfl, rfl⟩ hrun hc
    exact ⟨w, Array.toList_inj.mp (hl.stack.trans (Array.toList_push ..).symm)⟩
  · exact Array.toList_inj.mp (hread.error hhost hm.framed ⟨rfl, rfl⟩ hrun hc).stack
  · have hwrite := setGlobal_spec (b := m.base) (s := s.toList) (v := v) name (by rwa [Array.length_toList])
    have hl : Laid m.base (s.toList ++ [v]) m := ⟨rfl, by rw [hstack, Array.toList_push]⟩
    refine ⟨fun m' hrun hc => Array.toList_inj.mp (hwrite.ok hhost hm.framed hl hrun hc).stack,
      fun e m' hrun hc => ⟨fun hdot => ?_, fun hdot => ?_⟩⟩
    · have hends := hwrite.error hhost hm.framed hl hrun hc
      rw [if_pos hdot] at hends
      exact Array.toList_inj.mp hends.stack
    · have hends := hwrite.error hhost hm.framed hl hrun hc
      rw [if_neg hdot] at hends
      obtain ⟨key, hover⟩ := hends
      exact ⟨key, hover.stack⟩

/-- The globals have a metatable, a table at the bottom of the stack, whose `__newindex` field cannot be
    indexed. -/
def refusing : Machine :=
  let m := ownMeta [(.newindex, .int 5)]
  { m with heap := m.heap.modifyTable 1 fun t => { t with metatable := some 2 } }

theorem refusing_sound : refusing.Reachable ∧ refusing.Intact := by
  obtain ⟨hreachable, hintact⟩ := ownMeta_sound [(.newindex, .int 5)] fun e he => by
    rw [List.mem_singleton.mp he]
    exact Heap.present_of_ref? rfl
  have hthere : (ownMeta [(.newindex, .int 5)]).heap.Present (.table 2) :=
    Heap.present_object.mpr (Option.some_ne_none _)
  have hchange := Heap.Change.tableMeta (h := (ownMeta [(.newindex, .int 5)]).heap) 1 (some 2)
  exact ⟨hreachable.moves (.single (.change (.heap _ hchange))), hintact.change hchange
    (hintact.heap.setTableMeta fun slot hslot => Option.some.inj hslot ▸ hthere)⟩

theorem refusing_writeChain (strings : StringPool) (stack : Array Value) (id : StringId) (host : Host) :
    ∃ e, writeChain (.table 1) (.string id) v maxChain host { refusing with strings, stack } =
      .error e { refusing with strings, stack } := by
  have hfield : ({ refusing with strings, stack } : Machine).metafield (.table 1) .newindex = .int 5 := by
    change refusing.metafield (.table 1) .newindex = .int 5
    decide
  have hforwards : ({ refusing with strings, stack } : Machine).Forwards .newindex (.string id) (.table 1) := by
    refine ⟨by rw [hfield]; rfl, fun g hg => ?_, fun slot hslot => ?_⟩
    · cases hfield.symm.trans hg
    · cases hslot
      rfl
  have hstep : writeChain (.table 1) (.string id) v maxChain host { refusing with strings, stack } =
      writeChain (.int 5) (.string id) v 99 host { refusing with strings, stack } :=
    hfield ▸ writeChain_step hforwards 99
  exact ⟨_, hstep.trans (writeChain_refused (.refused rfl fun slot hslot => by cases hslot) 98)⟩

/-- Assigning to a new name fails there, and the value that was to be assigned stays on the stack. -/
theorem refusing_global_stack : ∃ e m', setGlobal "x" (Programs.host [] 1) (refusing.push (.int 7)) = .error e m' ∧
    ∃ key, [.table 2, key, .int 7] <+: m'.stack.toList := by
  have hm := refusing_sound.1
  have hrun : ∃ e stack strings, setGlobal "x" (Programs.host [] 1) (refusing.push (.int 7)) =
      .error e { refusing with stack, strings } := by
    rw [setGlobal, Path.splitLast_of_notMem (by decide)]
    dsimp only
    rw [setField_eq hm.framed]
    obtain ⟨e, hchain⟩ := refusing_writeChain (v := .int 7) _ _ _ (Programs.host [] 1)
    exact ⟨e, _, _, setTable_error rfl hm.framed hchain⟩
  obtain ⟨e, stack, strings, hrun⟩ := hrun
  obtain ⟨-, -, hassign⟩ := (hm.push (.int 7)).global_stack (Programs.host_lawful 1) "x"
  have hkept := (hassign refusing.stack (.int 7) rfl hm.framed).2 _ _ hrun rfl
  exact ⟨_, _, hrun, hkept.2 (by decide)⟩

end Machine

end ScriptHost
