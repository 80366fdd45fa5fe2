import ScriptHost.Proofs.Absence
import ScriptHost.Proofs.Exact
import ScriptHost.Proofs.Walk

/-! # One entry for equal values

Values are made keys by another path than the one on which they are compared. The two agree: values name
one entry if they are equal, and otherwise only if one of them is an integer and the other a float that
denotes just this integer.
-/

namespace ScriptHost

/-! ## Keys outside the heap -/

namespace Double

variable {a b : Double}

theorem sameNumber_iff (ha : a.isNaN = false) (hb : b.isNaN = false) :
    a.sameNumber b = true ↔ a = b ∨ a.isZero = true ∧ b.isZero = true := by
  obtain ⟨bits⟩ := a
  obtain ⟨bits'⟩ := b
  simp [sameNumber, ha, hb]

end Double

/-- Only floats are not compared by identity. -/
theorem Value.same_iff {v w : Value} (h : ∀ a b, v = .float a → w ≠ .float b) :
    v.same w = true ↔ v = w := by
  unfold same
  split
  · exact absurd rfl (h _ _ rfl)
  · exact beq_iff_eq

namespace Key

variable {a b d : Double} {v w : Value} {i : Int}

theorem ofValue?_float (h : d.isNaN = false) :
    ofValue? (.float d) = some ((d.toInt64?.map Key.integer).getD (.float d)) := by
  rw [ofValue?, if_neg (by rw [h]; exact Bool.noConfusion)]
  cases d.toInt64? <;> rfl

/-- Floats name one key if they are the same number. -/
theorem ofValue?_floats (ha : a.isNaN = false) (hb : b.isNaN = false) :
    ofValue? (.float a) = ofValue? (.float b) ↔ a.sameNumber b = true := by
  rw [ofValue?_float ha, ofValue?_float hb, Double.sameNumber_iff ha hb, Option.some.injEq]
  constructor
  · intro hkey
    cases hx : a.toInt64? with
    | none =>
        cases hy : b.toInt64? with
        | none =>
            rw [hx, hy] at hkey
            exact .inl (Key.float.inj hkey)
        | some j =>
            rw [hx, hy] at hkey
            cases hkey
    | some i =>
        cases hy : b.toInt64? with
        | none =>
            rw [hx, hy] at hkey
            cases hkey
        | some j =>
            rw [hx, hy] at hkey
            obtain rfl := Key.integer.inj hkey
            refine (Double.number?_inj (Double.toInt64?_eq_some.mp hx).1 (Double.toInt64?_eq_some.mp hy).1).imp_left
              fun hbits => ?_
            cases a
            cases b
            exact congrArg Double.mk hbits
  · rintro (rfl | ⟨hza, hzb⟩)
    · rfl
    · rw [Double.toInt64?_of_isZero hza, Double.toInt64?_of_isZero hzb]
      rfl

/-- Floats have the keys of numbers, and only integers share those. -/
theorem ofValue?_float_ne (hd : d.isNaN = false) (hint : ∀ i, w ≠ .int i) (hfloat : ∀ d, w ≠ .float d) :
    ofValue? (.float d) ≠ ofValue? w := by
  rw [ofValue?_float hd]
  cases w with
  | int i => exact absurd rfl (hint i)
  | float d => exact absurd rfl (hfloat d)
  | nil | bool | string | light | object | foreign => cases d.toInt64? <;> intro h <;> cases h

/-- Integers apart, values name one key if they are the same. -/
theorem ofValue?_iff (hv : ∀ i, v ≠ .int i) (hw : ∀ i, w ≠ .int i) (hnil : w ≠ .nil)
    (hvnan : ∀ d, v = .float d → d.isNaN = false) (hwnan : ∀ d, w = .float d → d.isNaN = false) :
    ofValue? v = ofValue? w ↔ v.same w = true := by
  by_cases hvfloat : ∃ a, v = .float a
  · obtain ⟨a, rfl⟩ := hvfloat
    by_cases hwfloat : ∃ b, w = .float b
    · obtain ⟨b, rfl⟩ := hwfloat
      exact ofValue?_floats (hvnan a rfl) (hwnan b rfl)
    · have hne := not_exists.mp hwfloat
      refine iff_of_false (ofValue?_float_ne (hvnan a rfl) hw hne) ?_
      cases w with
      | float b => exact absurd rfl (hne b)
      | nil | bool | int | string | light | object | foreign => simp [Value.same]
  · have hne := not_exists.mp hvfloat
    by_cases hwfloat : ∃ b, w = .float b
    · obtain ⟨b, rfl⟩ := hwfloat
      refine iff_of_false (ofValue?_float_ne (hwnan b rfl) hv hne).symm ?_
      cases v with
      | float a => exact absurd rfl (hne a)
      | nil | bool | int | string | light | object | foreign => simp [Value.same]
    · have hne' := not_exists.mp hwfloat
      cases v with
      | int i => exact absurd rfl (hv i)
      | float a => exact absurd rfl (hne a)
      | nil | bool | string | light | object | foreign =>
          cases w with
          | int i => exact absurd rfl (hw i)
          | float a => exact absurd rfl (hne' a)
          | nil => exact absurd rfl hnil
          | bool | string | light | object | foreign => simp [ofValue?, Value.same]

end Key

/-! ## Keys and equality -/

namespace Heap

variable {h : Heap Native} {v w : Value} {i : Int}

/-- A value that names an entry: neither nil nor NaN. Integers have 64 bits, and a box is there. -/
structure Keyed (h : Heap Native) (v : Value) : Prop where
  value : v ≠ .nil
  number : ∀ d, v = .float d → d.isNaN = false
  readable : h.Readable v
  range : ∀ i, h.toInt? v = some i → -2 ^ 63 ≤ i ∧ i < 2 ^ 63

/-- One of two values is an integer and the other a float that denotes exactly this integer. -/
def SameNumber (h : Heap Native) (v w : Value) : Prop :=
  ∃ i d, (h.toInt? v = some i ∧ w = .float d ∨ v = .float d ∧ h.toInt? w = some i) ∧
    d.number? = some (i : Rat)

theorem SameNumber.symm (hsame : h.SameNumber v w) : h.SameNumber w v := by
  obtain ⟨i, d, hvalues, hnumber⟩ := hsame
  exact ⟨i, d, hvalues.symm.imp And.symm And.symm, hnumber⟩

/-- The floats of the same number as an integer. -/
theorem sameNumber_integer (hv : h.toInt? v = some i) :
    h.SameNumber v w ↔ ∃ d, w = .float d ∧ d.number? = some (i : Rat) := by
  constructor
  · rintro ⟨j, d, ⟨hj, hw⟩ | ⟨rfl, -⟩, hnumber⟩
    · obtain rfl := Option.some.inj (hv.symm.trans hj)
      exact ⟨d, hw, hnumber⟩
    · cases hv
  · rintro ⟨d, hw, hnumber⟩
    exact ⟨i, d, .inl ⟨hv, hw⟩, hnumber⟩

theorem not_sameNumber (hv : h.toInt? v = none) (hw : h.toInt? w = none) : ¬ h.SameNumber v w := by
  rintro ⟨i, d, ⟨hint, -⟩ | ⟨-, hint⟩, -⟩
  · rw [hv] at hint
    cases hint
  · rw [hw] at hint
    cases hint

theorem key?_of_toInt? (hv : h.toInt? v = some i) : h.key? v = some (.integer i) := by
  rw [key?, hv]

/-- The key of an integer is that of all values that are the integer or denote it. -/
theorem key?_eq_integer (hlow : -2 ^ 63 ≤ i) (hhigh : i < 2 ^ 63) : h.key? w = some (.integer i) ↔
    h.toInt? w = some i ∨ ∃ d, w = .float d ∧ d.number? = some (i : Rat) := by
  rw [key?]
  cases hint : h.toInt? w with
  | some j =>
      have hfloat : ¬ ∃ d, w = .float d ∧ d.number? = some (i : Rat) := by
        rintro ⟨d, rfl, -⟩
        cases hint
      rw [or_iff_left hfloat, Option.some.injEq, Option.some.injEq, Key.integer.injEq]
  | none =>
      rw [or_iff_right (Option.some_ne_none i).symm]
      cases w with
      | int j => cases hint
      | float d =>
          constructor
          · intro hkey
            have hnan : d.isNaN = false := by
              by_contra hnan
              rw [Key.ofValue?, if_pos (Bool.not_eq_false _ ▸ hnan)] at hkey
              cases hkey
            rw [Key.ofValue?_float hnan, Option.some.injEq] at hkey
            cases hx : d.toInt64? with
            | none =>
                rw [hx] at hkey
                cases hkey
            | some j =>
                rw [hx] at hkey
                obtain rfl := Key.integer.inj hkey
                exact ⟨d, rfl, (Double.toInt64?_eq_some.mp hx).1⟩
          · rintro ⟨_, ⟨⟩, hnumber⟩
            rw [Key.ofValue?_float (Double.isNaN_of_number? hnumber),
              Double.toInt64?_eq_some.mpr ⟨hnumber, hlow, hhigh⟩]
            rfl
      | nil | bool | string | light | object | foreign => simp [Key.ofValue?]

end Heap

namespace Machine

variable {m : Machine} {v w x : Value} {i : Int} {slot : Nat} {key : Key} {t : Table}

/-- An integer is equal to the same integer only, wherever either is kept. -/
theorem rawEqual_integer (hv : m.heap.toInt? v = some i) :
    m.rawEqual v w = true ↔ m.heap.toInt? w = some i := by
  rw [rawEqual, hv]
  cases hw : m.heap.toInt? w with
  | some j => rw [beq_iff_eq, Option.some.injEq, eq_comm]
  | none =>
      refine iff_of_false (fun hsame => ?_) (Option.some_ne_none i).symm
      have hfloat : ∀ a b, v = .float a → w ≠ .float b := by
        rintro a - rfl
        cases hv
      obtain rfl := (Value.same_iff hfloat).mp hsame
      cases hv.symm.trans hw

theorem rawEqual_of_none (hv : m.heap.toInt? v = none) : m.rawEqual v w = v.same w := by
  rw [rawEqual, hv]

/-- Values name one key if they are equal, or an integer and a float that denotes it. -/
theorem key?_eq_iff (hv : m.heap.Keyed v) (hw : m.heap.Keyed w) :
    m.heap.key? v = m.heap.key? w ↔ m.rawEqual v w = true ∨ m.heap.SameNumber v w := by
  cases hx : m.heap.toInt? v with
  | some i =>
      obtain ⟨hlow, hhigh⟩ := hv.range i hx
      rw [Heap.key?_of_toInt? hx, eq_comm, Heap.key?_eq_integer hlow hhigh, rawEqual_integer hx,
        Heap.sameNumber_integer hx]
  | none =>
      rw [rawEqual_of_none hx]
      cases hy : m.heap.toInt? w with
      | some i =>
          obtain ⟨hlow, hhigh⟩ := hw.range i hy
          have hfloat : ∀ a b, v = .float a → w ≠ .float b := by
            rintro - b - rfl
            cases hy
          have hne : ¬ v.same w = true := fun hsame => by
            obtain rfl := (Value.same_iff hfloat).mp hsame
            cases hx.symm.trans hy
          rw [Heap.key?_of_toInt? hy, Heap.key?_eq_integer hlow hhigh, hx,
            or_iff_right (Option.some_ne_none i).symm, or_iff_right hne,
            ← Heap.sameNumber_integer hy]
          exact ⟨.symm, .symm⟩
      | none =>
          have hint : ∀ {u}, m.heap.toInt? u = none → ∀ i, u ≠ .int i := fun hu i h => by
            rw [h] at hu
            cases hu
          rw [or_iff_left (Heap.not_sameNumber hx hy), Heap.key?, hx, Heap.key?, hy]
          exact Key.ofValue?_iff (hint hx) (hint hy) hw.value hv.number hw.number

/-! ## Entries -/

theorem exists_key? (hv : m.heap.Keyed v) : ∃ key, m.heap.key? v = some key := by
  cases hkey : m.heap.key? v with
  | some key => exact ⟨key, rfl⟩
  | none =>
      rcases key?_eq_none hkey with hnil | ⟨d, hd, hnan⟩
      · exact absurd hnil hv.value
      · rw [hv.number d hd] at hnan
        cases hnan

theorem rawStore_key (hkey : m.heap.key? v = some key) (x : Value) :
    Op.rawStore slot v x m = .ok () (m.setEntry slot key x) := by
  have hnil : v ≠ .nil := fun hnil => by
    rw [hnil] at hkey
    cases hkey
  rw [Op.rawStore, Op.bind_ok Op.run_get, hkey]
  cases v with
  | nil => exact absurd rfl hnil
  | bool | float | int | string | light | object | foreign => rfl

/-- A store changes what the values of one key read. -/
theorem rawGet_setEntry (hslot : m.heap.tables.get? slot = some t) (ht : t.Layered) (x : Value) :
    (m.setEntry slot key x).rawGet slot w =
      if m.heap.key? w = some key then x else m.rawGet slot w := by
  have hkey : (m.setEntry slot key x).heap.key? w = m.heap.key? w := rfl
  rw [rawGet, rawGet, hkey, table_setEntry_get hslot, table_of_get hslot]
  cases hw : m.heap.key? w with
  | none => rfl
  | some k =>
      simp only [(ht.set key x).2, Option.some.injEq]

end Machine

/-- A step that writes at most one entry keeps array and entries apart. -/
theorem Heap.Writes.parted {h h' : Heap Native} {slot : Nat} (hwrites : h.Writes slot h')
    (ht : (h.table slot).Parted) : (h'.table slot).Parted := by
  rcases hwrites with ⟨harray, hentries⟩ | ⟨key, v, hset⟩ | ⟨harray, hentries⟩
  · exact ⟨hentries ▸ ht.nodup, harray ▸ hentries ▸ ht.outside, harray ▸ ht.trimmed⟩
  · rw [hset]
    exact ht.set key v
  · refine ⟨by simp [hentries], by simp [hentries], ?_⟩
    rw [harray]
    exact Table.parted_empty.trimmed

namespace Machine

variable {m : Machine} {v w : Value} {slot : Nat}

/-- Every table of a machine keeps array and entries apart. -/
theorem Reachable.parted (hm : m.Reachable) (slot : Nat) : (m.heap.table slot).Parted := by
  refine (hm.induction (P := fun m => m.heap.Sound ∧ (m.heap.table slot).Parted) (fun limits => ?_)
    fun hmove hm => ⟨hmove.heap_sound hm.1, (hmove.writes hm.1).parted hm.2⟩).2
  have hempty : ({ interval := limits.collectInterval } : Heap Native).Sound :=
    Heap.sound_empty.of_eq Arena.sound_empty Arena.sound_empty Arena.sound_empty rfl rfl rfl rfl
  have hregistry := Heap.Change.newTable.sound hempty
  refine ⟨Heap.Change.newTable.sound hregistry, ?_⟩
  exact (Heap.Change.newTable.writes hregistry).parted
    ((Heap.Change.newTable.writes hempty).parted Table.parted_empty)

/-- Values name one entry if they are equal, or one of them is an integer and the other a float that denotes
    it. What is stored under a value is then read under the other, and else makes no difference to it. The
    value of a key names this key again. -/
theorem Reachable.key_identity (hm : m.Reachable) (hv : m.heap.Keyed v) (hw : m.heap.Keyed w) :
    (m.heap.key? v = m.heap.key? w ↔ m.rawEqual v w = true ∨ m.heap.SameNumber v w) ∧
    (∀ slot t x, m.heap.tables.get? slot = some t → ∃ m', Op.rawStore slot v x m = .ok () m' ∧
      (m.rawEqual v w = true ∨ m.heap.SameNumber v w → m'.rawGet slot w = x) ∧
      (¬ (m.rawEqual v w = true ∨ m.heap.SameNumber v w) → m'.rawGet slot w = m.rawGet slot w)) ∧
    ∃ key, m.heap.key? v = some key ∧
      (m.keyValue key).2.heap.key? (m.keyValue key).1 = some key := by
  have hiff := key?_eq_iff hv hw
  obtain ⟨key, hkey⟩ := exists_key? hv
  refine ⟨hiff, fun slot t x hslot => ?_, key, hkey, ?_⟩
  · have ht : t.Layered := by
      have hparted := hm.parted slot
      rw [Heap.table, hslot] at hparted
      exact hparted.layered
    rw [← hiff, hkey]
    refine ⟨_, rawStore_key hkey x, fun hsame => ?_, fun hother => ?_⟩
    · rw [rawGet_setEntry hslot ht, if_pos hsame.symm]
    · rw [rawGet_setEntry hslot ht, if_neg fun hsame => hother hsame.symm]
  · obtain ⟨k, heap, hvalue, hnames, -⟩ := keyValue_names hm.heap_sound (Heap.normal_key? hkey hv.readable)
    rw [hvalue]
    exact hnames

/-- The least integer, which has to be boxed. -/
def leastBoxed : Machine := ((create).ofInt (-2 ^ 63)).2

/-- It names the entry of the float that denotes it, though the two are not equal. -/
theorem leastBoxed_key_identity :
    leastBoxed.Reachable ∧ leastBoxed.heap.Keyed (.boxed 0) ∧
    leastBoxed.heap.Keyed (.float ⟨0xC3E0000000000000⟩) ∧
    leastBoxed.rawEqual (.boxed 0) (.float ⟨0xC3E0000000000000⟩) = false ∧
    leastBoxed.heap.key? (.boxed 0) = leastBoxed.heap.key? (.float ⟨0xC3E0000000000000⟩) := by
  have hreachable : leastBoxed.Reachable :=
    (reachable_create {}).moves (.single (.change (.heap _ (.newBoxed (-2 ^ 63)))))
  have hbox : leastBoxed.heap.toInt? (.boxed 0) = some (-2 ^ 63) := rfl
  have hboxed : leastBoxed.heap.Keyed (.boxed 0) := by
    refine ⟨Value.noConfusion, ?_, ?_, ?_⟩
    · rintro d ⟨⟩
    · rintro r ⟨⟩ -
      exact Option.some_ne_none _
    · intro i hi
      obtain rfl := Option.some.inj (hbox.symm.trans hi)
      decide
  have hfloat : leastBoxed.heap.Keyed (.float ⟨0xC3E0000000000000⟩) := by
    refine ⟨Value.noConfusion, ?_, ?_, ?_⟩
    · rintro d ⟨⟩
      decide
    · rintro r ⟨⟩
    · rintro i ⟨⟩
  have hnumber : (⟨0xC3E0000000000000⟩ : Double).number? = some ((-2 ^ 63 : Int) : Rat) :=
    Double.toInt?_eq_some.mp (by decide)
  exact ⟨hreachable, hboxed, hfloat, rfl,
    (hreachable.key_identity hboxed hfloat).1.mpr (.inr ⟨_, _, .inl ⟨hbox, rfl⟩, hnumber⟩)⟩

end Machine

end ScriptHost
