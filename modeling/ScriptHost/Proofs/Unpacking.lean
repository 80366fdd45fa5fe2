import ScriptHost.Proofs.Callability
import ScriptHost.Proofs.Property

/-! # Ranges of a sequence

Unpacking a range of a table pushes the entries from one bound to the other, in order. Bounds and widths take
up all of 64 bits, and nothing is lost in them but in the look at the room of the stack, whose sum wraps around.
-/

namespace ScriptHost

namespace Table

/-- A bound of a range in exact arithmetic. -/
def bound (t : Table) (i : Int) : Int := if i < 0 then t.length + i + 1 else i

/-- The entries under so many integer keys, from one on. -/
def span (t : Table) (key : Int) (count : Nat) : List Value :=
  (List.range count).map fun k : Nat => t.getInt (key + k)

/-- The entries from one bound of a range to the other. -/
def between (t : Table) (first final : Int) : List Value :=
  t.span (t.bound first) (t.bound final + 1 - t.bound first).toNat

variable {t : Table} {key first final : Int} {count : Nat}

theorem span_succ : t.span key (count + 1) = t.getInt key :: t.span (key + 1) count := by
  have hkey : ∀ k : Nat, key + (k + 1) = key + 1 + k := fun k => by omega
  simp [span, List.range_succ_eq_map, hkey]

@[simp] theorem length_span : (t.span key count).length = count := by simp [span]

theorem length_between :
    (t.between first final).length = (t.bound final + 1 - t.bound first).toNat := length_span

theorem between_eq_nil : t.between first final = [] ↔ t.bound final < t.bound first := by
  rw [← List.length_eq_zero_iff, length_between]
  omega

end Table

/-- A table with two elements is on top. -/
def Machine.twoElements : Machine :=
  ((ownMeta []).setEntry 2 (.integer 1) (.int 10)).setEntry 2 (.integer 2) (.int 20)

namespace Op

variable {m : Machine} {i : StackIndex} {slot count : Nat} {t : Table} {key first final : Int}

theorem resolveBound_eq (hlength : t.length < 2 ^ 63) (hi : -2 ^ 63 ≤ first) :
    resolveBound t.length first = t.bound first := by
  unfold resolveBound Table.bound
  split
  · exact wrapInt64_eq (by omega) (by omega)
  · rfl

/-- The index of a table goes on naming it while values are pushed, once it is absolute. -/
theorem pins_table (h : m.value i = .table slot) : m.Pins (m.absolute i) (.table slot) :=
  Machine.pins_absolute ((m.value_absolute i).trans h) Value.noConfusion

theorem lengthAt_eq (h : m.value i = .table slot) : m.lengthAt i = (m.heap.table slot).length := by
  rw [Machine.lengthAt, h]
  rfl

theorem rawGetInt_eq (h : m.value i = .table slot) : rawGetInt i key m =
    .ok ((m.heap.table slot).getInt key).kind (m.push ((m.heap.table slot).getInt key)) := by
  rw [rawGetInt, bind_ok (tableAt_eq h), bind_ok run_get]
  rfl

/-- Entry after entry is pushed, and the index goes on naming the table. -/
theorem pushEntries_eq (h : m.Pins i (.table slot)) (key : Int) (count : Nat) : pushEntries i key count m =
    .ok () { m with stack := m.stack ++ ((m.heap.table slot).span key count).toArray } := by
  induction count generalizing m key with
  | zero => simp [pushEntries, Table.span]
  | succ count ih =>
      rw [pushEntries, bind_ok (rawGetInt_eq h.self), ih (h.push _), Table.span_succ]
      simp [Machine.push]

/-- The width of a range is that of its entries, and fits 64 bits. -/
theorem unpack_eq (htable : m.value i = .table slot) (hlength : (m.heap.table slot).length < 2 ^ 63)
    (hfirst : -2 ^ 63 ≤ first ∧ first < 2 ^ 63) (hfinal : -2 ^ 63 ≤ final ∧ final < 2 ^ 63)
    {es : List Value} (hes : (m.heap.table slot).between first final = es) : unpack i first final m =
      if es = [] ∨ (m.stack.size + es.length) % 2 ^ 64 ≤ m.limits.stackSlots then
        .ok es.length { m with stack := m.stack ++ es.toArray }
      else .error .stackOverflow m := by
  generalize ht : m.heap.table slot = t at hlength hes
  have hpins := pins_table htable
  have hcount : m.lengthAt (m.absolute i) = t.length := by rw [lengthAt_eq hpins.self, ht]
  have hwidth : es.length = (t.bound final + 1 - t.bound first).toNat := hes ▸ Table.length_between
  rw [unpack, bind_ok run_get]
  simp only [hcount, resolveBound_eq hlength hfirst.1, resolveBound_eq hlength hfinal.1]
  by_cases hempty : t.bound final < t.bound first
  · have hnil : es = [] := hes ▸ Table.between_eq_nil.mpr hempty
    rw [if_pos hempty, hnil]
    simp
  · have hne : es ≠ [] := fun hnil => hempty (Table.between_eq_nil.mp (hes.trans hnil))
    have hexact : (t.bound final - t.bound first + 1).toNat = es.length := by omega
    have hwrapped : ((t.bound final - t.bound first + 1) % 2 ^ 64).toNat = es.length := by
      unfold Table.bound at hempty hwidth ⊢
      rw [hwidth]
      split at * <;> omega
    rw [if_neg hempty, hwrapped, hexact]
    by_cases hroom : (m.stack.size + es.length) % 2 ^ 64 ≤ m.limits.stackSlots
    · have hpush := pushEntries_eq hpins (t.bound first) es.length
      have hspan : (m.heap.table slot).span (t.bound first) es.length = es := by
        rw [ht, hwidth]
        exact hes
      rw [hspan] at hpush
      have hhas : m.hasRoom es.length = true := decide_eq_true hroom
      rw [hhas, if_neg (by decide), if_pos (Or.inr hroom), bind_ok hpush]
      rfl
    · have hhas : m.hasRoom es.length = false := decide_eq_false hroom
      rw [hhas, if_pos (by decide), if_neg (not_or.mpr ⟨hne, hroom⟩)]
      rfl

/-- Unpacking a range pushes its entries in order and gives their number if there are none or they fit the
    stack, and fails otherwise and leaves the stack as it was, while both together are a number of 64 bits. Beyond
    that what is left of their sum decides, and all are pushed where it is small enough. -/
theorem unpack_range (htable : m.value i = .table slot) (hlength : (m.heap.table slot).length < 2 ^ 63)
    (hfirst : -2 ^ 63 ≤ first ∧ first < 2 ^ 63) (hfinal : -2 ^ 63 ≤ final ∧ final < 2 ^ 63)
    {es : List Value} (hes : (m.heap.table slot).between first final = es) :
    (es = [] ∨ m.stack.size + es.length ≤ m.limits.stackSlots →
      unpack i first final m = .ok es.length { m with stack := m.stack ++ es.toArray }) ∧
    (es ≠ [] → m.limits.stackSlots < m.stack.size + es.length → m.stack.size + es.length < 2 ^ 64 →
      unpack i first final m = .error .stackOverflow m) ∧
    (2 ^ 64 ≤ m.stack.size + es.length → (m.stack.size + es.length) % 2 ^ 64 ≤ m.limits.stackSlots →
      unpack i first final m = .ok es.length { m with stack := m.stack ++ es.toArray }) := by
  have heq := unpack_eq htable hlength hfirst hfinal hes
  refine ⟨fun hfits => ?_, fun hne hlarge hsum => ?_, fun _ hwraps => ?_⟩
  · rw [heq, if_pos (hfits.imp_right (Nat.mod_le _ _).trans)]
  · rw [heq, if_neg]
    rw [Nat.mod_eq_of_lt hsum, not_or]
    exact ⟨hne, Nat.not_le.mpr hlarge⟩
  · rw [heq, if_pos (.inr hwraps)]

/-- From the first to the last both elements are pushed. -/
theorem twoElements_unpack : unpack (.fromBottom 1) 1 (-1) Machine.twoElements =
    .ok 2 { Machine.twoElements with stack := #[.table 2, .int 10, .int 20] } := by
  have hes : (Machine.twoElements.heap.table 2).between 1 (-1) = [.int 10, .int 20] := by decide
  exact (unpack_range (i := .fromBottom 1) rfl (by decide) (by decide) (by decide) hes).1 (.inr (by decide))

/-- The whole range of 64-bit keys of an empty table, which lies alone on the stack, has as many entries as make
    the sum zero, and so they are pushed, far beyond the limit. -/
theorem unpack_wraps : ∃ m', unpack (.fromBottom 1) (-2 ^ 63) (2 ^ 63 - 1) (Machine.ownMeta []) =
    .ok (2 ^ 64 - 1) m' ∧ m'.limits.stackSlots < m'.stack.size := by
  have hlength : ((Machine.ownMeta []).heap.table 2).length = 0 := by decide
  generalize hes : ((Machine.ownMeta []).heap.table 2).between (-2 ^ 63) (2 ^ 63 - 1) = es
  have hwidth : es.length = 2 ^ 64 - 1 := by
    rw [← hes, Table.length_between, Table.bound, Table.bound, hlength]
    decide
  have heq := unpack_eq (i := .fromBottom 1) (m := Machine.ownMeta []) rfl (by rw [hlength]; decide) (by decide)
    (by decide) hes
  have hsize : (Machine.ownMeta []).stack.size = 1 := rfl
  refine ⟨_, by rw [heq, hwidth, hsize, if_pos (.inr (by decide))], ?_⟩
  simp only [Array.size_append, List.size_toArray, hwidth, hsize]
  decide

end Op

end ScriptHost
