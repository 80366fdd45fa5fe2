import ScriptHost.Machine.Check
import ScriptHost.Proofs.Lawful
import ScriptHost.Sequence

/-! # Stack and tables

Moving values, reading them and working on tables without metamethods is lawful: nothing below the
base changes.
-/

namespace ScriptHost.Machine

/-! ## Changes of the stack -/

variable {m : Machine} {n p : Nat} {v : Value}

theorem leads_stack {s : Array Value} (hsize : m.Framed → m.base ≤ s.size)
    (hkeep : ∀ i < m.base, i < m.stack.size → s[i]? = m.stack[i]?) :
    Leads m { m with stack := s } := fun hm =>
  .change (.stack s (hsize hm) fun i hi => hkeep i hi (Nat.lt_of_lt_of_le hi hm))

theorem leads_push : Leads m (m.push v) := by
  refine leads_stack (fun hm => ?_) fun i hi hlt => ?_
  · rw [Array.size_push]
    exact Nat.le_succ_of_le hm
  · rw [Array.getElem?_push_lt hlt, Array.getElem?_eq_getElem hlt]

theorem topValue_push (hm : m.Framed) : (m.push v).topValue = v := by
  have htop : 1 ≤ (m.push v).top := by
    simp only [top, push, Array.size_push]
    change 1 ≤ m.stack.size + 1 - m.base
    unfold Framed at hm
    omega
  have hposition : (m.push v).position? .top = some m.stack.size := by
    rw [StackIndex.top, position?, if_pos ⟨Nat.le_refl 1, htop⟩]
    simp [push]
  change (((m.push v).position? .top).bind fun p => (m.push v).stack[p]?).getD .nil = v
  rw [hposition]
  simp [push]

theorem leads_truncate (hn : m.base ≤ n) : Leads m (m.truncate n) := by
  refine leads_stack (fun hm => ?_) fun i hi hlt => ?_
  · rw [Array.size_shrink]
    exact Nat.le_min.mpr ⟨hn, hm⟩
  · rw [← Array.getElem?_toList, Array.toList_shrink,
      List.getElem?_take_of_lt (Nat.lt_of_lt_of_le hi hn), Array.getElem?_toList]

theorem resize_eq (m : Machine) (n : Nat) : ∃ stack, m.resize n = { m with stack } := by
  unfold resize
  split <;> exact ⟨_, rfl⟩

theorem setTop_eq (m : Machine) (n : Nat) : ∃ stack, m.setTop n = { m with stack } := m.resize_eq _

theorem leads_resize (hn : m.base ≤ n) : Leads m (m.resize n) := by
  unfold resize
  split
  · exact leads_truncate hn
  · refine leads_stack (fun hm => ?_) fun i hi hlt => ?_
    · rw [Array.size_append]
      exact Nat.le_add_right_of_le hm
    · rw [Array.getElem?_append_left hlt]

theorem leads_setTop : Leads m (m.setTop n) := leads_resize (Nat.le_add_right _ _)

theorem leads_pop : Leads m (m.pop n) := leads_truncate (Nat.le_max_right _ _)

/-- What was pushed last is taken off. -/
theorem pop_push {s : Array Value} (hbase : m.base ≤ s.size) :
    ({ m with stack := s.push v } : Machine).pop 1 = { m with stack := s } := by
  have hsize : max ((s.push v).size - 1) m.base = s.size := by
    rw [Array.size_push]
    omega
  have hstack : (s.push v).shrink s.size = s := by
    rw [← Array.toList_inj, Array.toList_shrink, Array.toList_push, ← Array.length_toList,
      List.take_left]
  change ({ m with stack := (s.push v).shrink (max ((s.push v).size - 1) m.base) } : Machine) = _
  rw [hsize, hstack]

theorem leads_putAt (hp : m.base ≤ p) : Leads m (m.putAt p v) := by
  refine leads_stack (fun hm => ?_) fun i hi hlt => ?_
  · rwa [Array.size_setIfInBounds]
  · rw [Array.getElem?_setIfInBounds_ne (by omega)]

theorem toList_insertIdxIfInBounds (s : Array Value) :
    (s.insertIdxIfInBounds p v).toList = s.toList.insertIdx p v := by
  unfold Array.insertIdxIfInBounds
  split
  · rw [Array.toList_insertIdx]
  · rename_i hp
    rw [List.insertIdx_of_length_lt]
    simpa using hp

theorem leads_insertAt (hp : m.base ≤ p) : Leads m (m.insertAt p v) := by
  refine leads_stack (fun hm => ?_) fun i hi hlt => ?_
  · rw [← Array.length_toList, toList_insertIdxIfInBounds]
    exact Nat.le_trans hm List.length_le_length_insertIdx
  · rw [← Array.getElem?_toList, toList_insertIdxIfInBounds,
      List.getElem?_insertIdx_of_lt (Nat.lt_of_lt_of_le hi hp), Array.getElem?_toList]

theorem leads_eraseAt (hp : m.base ≤ p) (hlt : p < m.stack.size) : Leads m (m.eraseAt p) := by
  refine leads_stack (fun hm => ?_) fun i hi _ => ?_
  · rw [← Array.length_toList, Array.toList_eraseIdxIfInBounds, List.length_eraseIdx]
    simp only [Array.length_toList]
    split <;> omega
  · rw [← Array.getElem?_toList, Array.toList_eraseIdxIfInBounds,
      List.getElem?_eraseIdx_of_lt (Nat.lt_of_lt_of_le hi hp), Array.getElem?_toList]

theorem leads_sinkTop (hp : m.base ≤ p) (hlt : p < m.stack.size) : Leads m (m.sinkTop p) := by
  unfold sinkTop
  split
  · refine leads_stack (fun hm => ?_) fun i hi _ => ?_
    · rw [← Array.length_toList, toList_insertIdxIfInBounds, List.length_insertIdx_of_le_length]
      · rw [Array.length_toList, Array.size_pop]
        omega
      · rw [Array.length_toList, Array.size_pop]
        omega
    · rw [← Array.getElem?_toList, toList_insertIdxIfInBounds,
        List.getElem?_insertIdx_of_lt (Nat.lt_of_lt_of_le hi hp), Array.getElem?_toList,
        Array.getElem?_pop, if_pos (by omega)]
  · exact .refl

/-! ## Other changes -/

theorem leads_intern {bytes : Bytes} : Leads m (m.intern bytes).2 := (Change.intern bytes).leads

theorem leads_heap {h : Heap Native} (hc : m.heap.Change h) : Leads m { m with heap := h } :=
  (Change.heap h hc).leads

theorem leads_pushAt {i : StackIndex} : Leads m (m.pushAt i) := leads_push

theorem pushInt_inline {i : Int} (hi : Value.fitsInline i = true) : m.pushInt i = m.push (.int i) := by
  rw [pushInt, ofInt, m.heap.ofInt_inline hi]

theorem pushInt_newBoxed {i : Int} (hi : Value.fitsInline i = false) :
    m.pushInt i = ({ m with heap := (m.heap.newBoxed i).2 } : Machine).push (.boxed (m.heap.newBoxed i).1) := by
  rw [pushInt, ofInt, m.heap.ofInt_newBoxed hi]

theorem leads_ofInt {i : Int} : Leads m (m.ofInt i).2 := by
  change Leads m { m with heap := (m.heap.ofInt i).2 }
  unfold Heap.ofInt
  split
  · exact .refl
  · exact leads_heap (.newBoxed i)

theorem leads_pushInt {i : Int} : Leads m (m.pushInt i) := leads_ofInt.trans leads_push

theorem leads_pushBytes {bytes : Bytes} : Leads m (m.pushBytes bytes) :=
  leads_intern.trans leads_push

theorem leads_pushText {text : String} : Leads m (m.pushText text) := leads_pushBytes

theorem leads_note_constructed {slot : Nat} : Leads m (m.note .constructed slot) :=
  (Change.constructed slot).leads

theorem leads_errorValue {e : ScriptError} : Leads m (m.errorValue e).2 := by
  unfold errorValue ScriptError.toValue
  cases e with
  | value v => exact .refl
  | runtime | stackOverflow | errorInHandler => exact leads_intern

theorem leads_setEntry {slot : Nat} {key : Key} : Leads m (m.setEntry slot key v) :=
  leads_heap (.entry slot key v)

theorem leads_keyValue {key : Key} : Leads m (m.keyValue key).2 := by
  unfold keyValue
  split
  · exact .refl
  · exact leads_ofInt

/-- An index that names a value names one of the frame. -/
theorem position?_bounds {i : StackIndex} (h : m.position? i = some p) :
    m.base ≤ p ∧ p < m.stack.size := by
  unfold position? at h
  split at h
  · split at h
    · obtain rfl := Option.some.inj h
      omega
    · cases h
  · split at h
    · obtain rfl := Option.some.inj h
      unfold top at *
      omega
    · cases h
  · cases h

theorem leads_stringAt {i : StackIndex} : Leads m (m.stringAt i).2 := by
  unfold stringAt
  split
  · exact .refl
  · split
    · exact .refl
    · dsimp only
      split
      · rename_i p hp
        exact leads_intern.trans (leads_putAt (position?_bounds hp).1)
      · exact leads_intern

theorem leads_bytesAt {i : StackIndex} : Leads m (m.bytesAt i).2 := leads_stringAt

theorem leads_textAt {i : StackIndex} : Leads m (m.textAt i).2 := leads_bytesAt

end ScriptHost.Machine

namespace ScriptHost.Op

open Machine

variable {i : StackIndex} {n : Nat} {v : Value} {name : String}

/-! ## Operations of the stack -/

theorem pushLight_ok {a : Address} (h : a < Value.lightBound) : pushLight a m = .ok () (m.push (.light a)) := by
  rw [pushLight, Value.light?, if_pos h]
  rfl

theorem pushLight_refused {a : Address} (h : ¬ a < Value.lightBound) :
    pushLight a m = .error (.ofFault (.addressTooLarge a)) m := by
  rw [pushLight, Value.light?, if_neg h]
  rfl

theorem pushLight_lawful (a : Address) : (pushLight a).Lawful := by
  unfold pushLight
  split
  · exact .modify fun m => leads_push
  · exact .fail _

theorem position_eq (m : Machine) : position i m =
    match m.position? i with
    | some p => .ok p m
    | none => .error (.ofFault (.invalidIndex i)) m := by
  change (match m.position? i with
    | some p => (pure p : Op ScriptError Nat)
    | none => fail (.invalidIndex i)) m = _
  cases m.position? i <;> rfl

/-- A position that an operation found is one of the frame. -/
theorem position_spec {m m' : Machine} {p : Nat} (h : position i m = .ok p m') :
    m' = m ∧ m.position? i = some p := by
  rw [position_eq] at h
  cases hp : m.position? i with
  | none =>
      rw [hp] at h
      cases h
  | some q =>
      rw [hp] at h
      cases h
      exact ⟨rfl, rfl⟩

theorem position_lawful (i : StackIndex) : (position i).Lawful :=
  .bind .get fun m => by
    split
    · exact .pure _
    · exact .fail _

theorem lawful_at_position {f : Nat → Op ScriptError PUnit}
    (hf : ∀ m p, m.base ≤ p → p < m.stack.size → Leads m ((f p).after m)) :
    (do let p ← position i; f p).Lawful := by
  refine fun m => leads_bind (position_lawful i m) fun p m' hp => ?_
  obtain ⟨rfl, hp⟩ := position_spec hp
  exact hf _ p (position?_bounds hp).1 (position?_bounds hp).2

theorem insert_lawful (i : StackIndex) : (insert i).Lawful :=
  lawful_at_position fun _ _ hbase hlt => leads_sinkTop hbase hlt

theorem remove_lawful (i : StackIndex) : (remove i).Lawful :=
  lawful_at_position fun _ _ hbase hlt => leads_eraseAt hbase hlt

theorem store_lawful (i : StackIndex) (v : Value) : (store i v).Lawful := by
  unfold store
  cases i with
  | upvalue n =>
      refine .bind .get fun m => ?_
      split
      · exact .fail _
      · dsimp only
        split
        · exact .fail _
        · exact .modify fun m => leads_heap (.upvalue _ _ v)
  | environment =>
      dsimp only
      split
      · exact .modify fun m => (Change.host _ _ _ _ _).leads
      · exact .fail _
  | registry => exact .fail _
  | fromBottom n | fromTop n => exact lawful_at_position fun _ _ hbase _ => leads_putAt hbase

theorem replace_lawful (i : StackIndex) : (replace i).Lawful :=
  .bind .get fun _ => .bind (store_lawful _ _) fun _ => .modify fun _ => leads_pop

end ScriptHost.Op
