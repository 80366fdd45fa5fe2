import ScriptHost.Proofs.Border
import ScriptHost.Proofs.Unpacking

/-! # Tables as stacks

The last element of a sequence is read, removed and put back by its number, which is the border of the table.
What is appended is the last element after that, whatever else the table holds, and the array of the table has
grown by this element only, unless another one was waiting behind it.
-/

namespace ScriptHost

namespace Table

variable {t : Table} {array : Array Value} {entries : List (Key × Value)} {v : Value}

/-- Nothing is moved into an array if no value waits for its next place. -/
theorem absorb_array (hnext : entryValue entries (.integer (array.size + 1)) = .nil) (fuel : Nat) :
    (absorb array entries fuel).array = array := by
  cases fuel with
  | zero => rfl
  | succ fuel =>
      rw [absorb]
      dsimp only
      cases hlookup : entries.lookup (.integer (array.size + 1)) with
      | none => rfl
      | some w =>
          have hw : w = .nil := by rwa [entryValue, hlookup, Option.getD_some] at hnext
          simp only [hw, Value.isNil, if_true]

theorem trim_push (h : Trimmed array) : trim (array.push .nil) = array := by
  have hkept : trim array = array := by
    unfold trim
    split
    · rename_i hpos
      have hlast := h _ (Array.back?_eq_getElem? ▸ Array.getElem?_eq_getElem (by omega))
      rw [if_neg (by simp [hlast])]
    · rfl
  rw [trim, dif_pos (by simp)]
  simp [Value.isNil, hkept]

/-- Nil in the place of the last value takes it off again. -/
theorem setItem_push (h : Trimmed array) : setItem (array.push v) array.size .nil = array := by
  have hoverwritten : (array.push v).setIfInBounds array.size .nil = array.push .nil := by
    rw [← Array.toList_inj]
    simp
  simp only [setItem, hoverwritten, Array.size_push, Value.isNil, decide_true, Bool.and_true, if_true]
  exact trim_push h

/-- An appended element lengthens a sequence by one if no value waits behind it, and is the only one that its
    removal takes away. -/
theorem Layered.length_append (ht : t.Layered) (hv : v.isNil = false) (hnext : t.getInt (t.length + 2) = .nil) :
    (t.set (.integer (t.length + 1)) v).length = t.length + 1 ∧
    ((t.set (.integer (t.length + 1)) v).set (.integer (t.length + 1)) .nil).length = t.length := by
  have hset := (ht.set (.integer (t.length + 1)) v).1
  have harray : (t.set (.integer (t.length + 1)) v).array = t.array.push v := by
    rw [ht.length_eq] at hnext ⊢
    rw [getInt_entry (by omega)] at hnext
    rw [set_next hv]
    refine absorb_array ?_ t.entries.length
    rw [Array.size_push, Int.natCast_add, Int.natCast_one, Int.add_assoc]
    exact hnext
  have hlength : (t.set (.integer (t.length + 1)) v).length = t.length + 1 := by
    rw [hset.length_eq, harray, Array.size_push, ht.length_eq]
  refine ⟨hlength, ?_⟩
  have hin : 1 ≤ (t.length : Int) + 1 ∧
      (t.length : Int) + 1 ≤ (t.set (.integer (t.length + 1)) v).array.size := by
    rw [← hset.length_eq, hlength]
    omega
  have hremoved : ((t.set (.integer (t.length + 1)) v).set (.integer (t.length + 1)) .nil).array = t.array := by
    have hposition : ((t.length : Int) + 1 - 1).toNat = t.array.size := by
      rw [← ht.length_eq]
      omega
    rw [set_item hin, hposition, harray]
    exact setItem_push ht.trimmed
  rw [(hset.set (.integer (t.length + 1)) .nil).1.length_eq, hremoved, ht.length_eq]

end Table

/-! ## The operations -/

namespace Op

variable {m : Machine} {i j : StackIndex} {v : Value} {slot : Nat} {key : Int}

/-- The value on top is stored. -/
theorem rawSetInt_push (hm : m.Framed) (h : (m.push v).value ((m.push v).absolute i) = .table slot) :
    rawSetInt i key (m.push v) = .ok () (m.setEntry slot (.integer key) v) := by
  have htop : (m.push v).topValue = v := Machine.topValue_push hm
  have hpop : ((m.push v).setEntry slot (.integer key) v).pop 1 = m.setEntry slot (.integer key) v :=
    Machine.pop_push (m := m.setEntry slot (.integer key) v) hm
  rw [rawSetInt, bind_ok run_get, bind_ok (tableAt_eq h), bind_ok run_modify, run_modify, htop, hpop]

theorem last_eq (h : m.value i = .table slot) : last i m =
    .ok ((m.heap.table slot).getInt (m.heap.table slot).length).kind
      (m.push ((m.heap.table slot).getInt (m.heap.table slot).length)) := by
  have hpins := pins_table h
  rw [last, bind_ok run_get, lengthAt_eq hpins.self]
  exact rawGetInt_eq hpins.self

theorem append_push (hm : m.Framed) (h : (m.push v).value i = .table slot) : append i (m.push v) =
    .ok () (m.setEntry slot (.integer ((m.heap.table slot).length + 1)) v) := by
  have hpins := pins_table h
  rw [append, bind_ok run_get, lengthAt_eq hpins.self]
  exact rawSetInt_push hm (by rw [hpins.absolute]; exact hpins.self)

theorem removeLast_eq (hm : m.Framed) (h : m.value i = .table slot) (keep : Bool) : removeLast i keep m =
    .ok () ((if keep then m.push ((m.heap.table slot).getInt (m.heap.table slot).length) else m).setEntry slot
      (.integer (m.heap.table slot).length) .nil) := by
  have hpins := pins_table h
  rw [removeLast, bind_ok run_get, lengthAt_eq hpins.self]
  cases keep with
  | false =>
      rw [if_neg Bool.false_ne_true, if_neg Bool.false_ne_true]
      exact rawSetInt_push hm (by rw [hpins.absolute]; exact (hpins.push .nil).self)
  | true =>
      have hkept := hpins.push ((m.heap.table slot).getInt (m.heap.table slot).length)
      rw [if_pos rfl, if_pos rfl, bind_ok (rawGetInt_eq hpins.self)]
      exact rawSetInt_push (Machine.framed_push hm) (by rw [hpins.absolute]; exact (hkept.push .nil).self)

end Op

/-! ## The last element -/

namespace Table

/-- The last element of a sequence; nil if there is none. -/
def lastElement (t : Table) : Value := if t.length = 0 then .nil else t.getInt t.length

variable {t : Table}

theorem getInt_length (hzero : t.length = 0 → t.getInt 0 = .nil) : t.getInt t.length = t.lastElement := by
  unfold lastElement
  split
  · rename_i hlength
    rw [hlength]
    exact hzero hlength
  · rfl

end Table

namespace Machine

variable {m : Machine} {i : StackIndex} {slot : Nat} {t : Table}

/-- Nil in the place of the last element changes no other entry, and none at all where there is no element. -/
theorem get_removed (hm : m.Reachable) (hslot : m.heap.contents? ⟨.table, slot⟩ ≠ none)
    (hzero : (m.heap.table slot).length = 0 → (m.heap.table slot).getInt 0 = .nil) (slot' : Nat) (k : Key) :
    ((m.setEntry slot (.integer (m.heap.table slot).length) .nil).heap.table slot').get k =
      if slot' = slot ∧ k = .integer (m.heap.table slot).length ∧ (m.heap.table slot).length ≠ 0 then .nil
      else (m.heap.table slot').get k := by
  rw [get_setEntry hm hslot]
  by_cases hlength : (m.heap.table slot).length = 0
  · have hnone : ¬ (slot' = slot ∧ k = .integer (m.heap.table slot).length ∧
        (m.heap.table slot).length ≠ 0) := fun h => h.2.2 hlength
    rw [if_neg hnone]
    split
    · rename_i hkey
      rw [hkey.1, hkey.2, hlength]
      exact (hzero hlength).symm
    · rfl
  · simp only [hlength, ne_eq, not_false_eq_true, and_true]

/-- What is appended is the last element, and its removal puts everything back. -/
theorem append_removed (hm : m.Reachable) (htable : m.value i = .table slot)
    (hslot : m.heap.contents? ⟨.table, slot⟩ ≠ none) {v : Value} (hv : v.isNil = false)
    (hnext : (m.heap.table slot).getInt ((m.heap.table slot).length + 2) = .nil) :
    ∃ m', Op.removeLast i true (m.setEntry slot (.integer ((m.heap.table slot).length + 1)) v) = .ok () m' ∧
      m'.stack = m.stack.push v ∧ (∀ slot' k, (m'.heap.table slot').get k = (m.heap.table slot').get k) ∧
      (m'.heap.table slot).length = (m.heap.table slot).length := by
  generalize happended : m.setEntry slot (.integer ((m.heap.table slot).length + 1)) v = m₁
  have hlayered := (hm.parted slot).layered
  obtain ⟨hgrown, hback⟩ := hlayered.length_append hv hnext
  have ht₁ : m₁.heap.table slot = (m.heap.table slot).set (.integer ((m.heap.table slot).length + 1)) v :=
    happended ▸ table_setEntry_self hslot
  have hm₁ : m₁.Reachable := happended ▸ hm.setEntry
  have htable₁ : m₁.value i = .table slot := happended ▸ htable
  have hslot₁ : m₁.heap.contents? ⟨.table, slot⟩ ≠ none := by
    have hpresent : m.heap.Present (.table slot) := Heap.present_object.mpr hslot
    have hkept : m₁.heap.Present (.table slot) :=
      happended ▸ Heap.Change.present (.entry slot _ v) hm.heap_sound hpresent
    exact Heap.present_object.mp hkept
  have hlength₁ : (m₁.heap.table slot).length = (m.heap.table slot).length + 1 := by rw [ht₁, hgrown]
  have hlast : (m₁.heap.table slot).getInt ((m.heap.table slot).length + 1) = v := by
    rw [ht₁]
    exact ((hlayered.set _ v).2 (.integer _)).trans (if_pos rfl)
  have hremove := Op.removeLast_eq hm₁.framed htable₁ true
  rw [if_pos rfl, hlength₁, Int.natCast_add, Int.natCast_one, hlast] at hremove
  refine ⟨_, hremove, ?_, fun slot' k => ?_, ?_⟩
  · change m₁.stack.push v = m.stack.push v
    rw [← happended]
    rfl
  · change ((m₁.setEntry slot _ .nil).heap.table slot').get k = _
    rw [get_setEntry hm₁ hslot₁, ← happended, get_setEntry hm hslot]
    split
    · rename_i hkey
      rw [hkey.1, hkey.2]
      exact (Table.isBorder_length _).next.symm
    · rfl
  · change ((m₁.setEntry slot _ .nil).heap.table slot).length = _
    rw [table_setEntry_self hslot₁, ht₁, hback]

/-- The operations on a sequence treat a table as a stack on the keys from one to its border, whatever else it
    holds: the last element is read and removed by its key, and one that was appended is removed with nothing
    else changed, if none waits behind it. Only a value under zero is taken for the last element of an empty
    sequence, so there must be none for what comes first. -/
theorem Reachable.sequence_stack (hm : m.Reachable) (htable : m.value i = .table slot)
    (hthere : m.heap.tables.get? slot = some t) :
    ((t.length = 0 → t.getInt 0 = .nil) →
      Op.last i m = .ok t.lastElement.kind (m.push t.lastElement) ∧
      ∀ keep, ∃ m', Op.removeLast i keep m = .ok () m' ∧
        m'.stack = (if keep then m.stack.push t.lastElement else m.stack) ∧
        ∀ slot' k, (m'.heap.table slot').get k =
          if slot' = slot ∧ k = .integer t.length ∧ t.length ≠ 0 then .nil else (m.heap.table slot').get k) ∧
    ∀ v j, v.isNil = false → t.getInt (t.length + 2) = .nil → (m.push v).value j = .table slot →
      ∃ m₁ m₂, Op.append j (m.push v) = .ok () m₁ ∧ Op.removeLast i true m₁ = .ok () m₂ ∧
        m₂.stack = m.stack.push v ∧ (∀ slot' k, (m₂.heap.table slot').get k = (m.heap.table slot').get k) ∧
        (m₂.heap.table slot).length = t.length := by
  obtain rfl := table_of_get hthere
  have hslot : m.heap.contents? ⟨.table, slot⟩ ≠ none := by
    rw [Heap.contents?_table.mpr hthere]
    exact Option.some_ne_none _
  refine ⟨fun hzero => ⟨?_, fun keep => ⟨_, Op.removeLast_eq hm.framed htable keep, ?_, fun slot' k => ?_⟩⟩,
    fun v j hv hnext hj => ?_⟩
  · rw [Op.last_eq htable, Table.getInt_length hzero]
  · rw [Table.getInt_length hzero]
    cases keep <;> rfl
  · rw [← get_removed hm hslot hzero]
    cases keep <;> rfl
  · obtain ⟨m₂, hremove, hrest⟩ := append_removed hm htable hslot hv hnext
    exact ⟨_, m₂, Op.append_push hm.framed hj, hremove, hrest⟩

theorem twoElements_reachable : twoElements.Reachable :=
  (ownMeta_sound [] (by simp)).1.setEntry.setEntry

/-- The second of two elements is taken off and kept, and the first one stays. -/
theorem twoElements_removeLast : ∃ m', Op.removeLast (.fromBottom 1) true twoElements = .ok () m' ∧
    m'.stack = #[.table 2, .int 20] ∧ (m'.heap.table 2).get (.integer 2) = .nil ∧
    (m'.heap.table 2).get (.integer 1) = .int 10 := by
  obtain ⟨hends, -⟩ := twoElements_reachable.sequence_stack
    (show twoElements.value (.fromBottom 1) = .table 2 from rfl) rfl
  obtain ⟨-, hremoves⟩ := hends (by decide)
  obtain ⟨m', hrun, hstack, hget⟩ := hremoves true
  exact ⟨m', hrun, hstack, by rw [hget]; decide, by rw [hget]; decide⟩

/-- A table that has a value under zero and no element. -/
def underZero : Machine := (ownMeta []).setEntry 2 (.integer 0) (.int 5)

/-- It is taken for the last element: it is pushed, and removed. -/
theorem underZero_taken : (underZero.heap.table 2).length = 0 ∧
    Op.last (.fromBottom 1) underZero = .ok .number (underZero.push (.int 5)) ∧
    ∃ m', Op.removeLast (.fromBottom 1) false underZero = .ok () m' ∧
      (m'.heap.table 2).get (.integer 0) = .nil := by
  have hlength : (underZero.heap.table 2).length = 0 := by decide
  have hlast : (underZero.heap.table 2).getInt 0 = .int 5 := by decide
  have htable : underZero.value (.fromBottom 1) = .table 2 := rfl
  refine ⟨hlength, ?_, _, Op.removeLast_eq (Nat.zero_le _) htable false, ?_⟩
  · have hrun := Op.last_eq htable
    rw [hlength, Int.natCast_zero, hlast] at hrun
    exact hrun
  · rw [hlength]
    decide

end Machine

end ScriptHost
