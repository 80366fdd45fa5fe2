import Mathlib.Logic.Relation
import ScriptHost.Proofs.Places

/-! # Traversals

A traversal goes through the places of a table and returns the values that it comes to. What is stored on
the way may set keys to nil that were returned and overwrite values, so the order of the places stays, and
each value is returned once. The traversal loses its way only if nil is stored under the key that it
returned last when this is the last key of the array: then the key has no place any more.
-/

namespace ScriptHost

namespace Table

/-! ## A traversal under way -/

/-- A table that is traversed, and the entries that the traversal has returned, the latest first. -/
structure Traversal where
  table : Table
  returned : List (Key × Value) := []
  /-- Nil was stored under the key returned last when it was the last key of the array. -/
  lost : Prop := False

namespace Traversal

variable {s s' : Traversal} {key : Key} {v : Value}

/-- The key from which the traversal goes on. -/
def position (s : Traversal) : Option Key := s.returned.head?.map (·.1)

/-- What may be stored on the way: nil under a key that was returned, and a value over a value. -/
def Permits (s : Traversal) (key : Key) (v : Value) : Prop :=
  v.isNil = true ∧ key ∈ s.returned.map (·.1) ∨ v.isNil = false ∧ (s.table.get key).isNil = false

/-- Nil under the key returned last, where that is the last key of the array. -/
def Loses (s : Traversal) (key : Key) (v : Value) : Prop :=
  v.isNil = true ∧ s.position = some key ∧ key = .integer s.table.array.size ∧ 0 < s.table.array.size

inductive Step (s : Traversal) : Traversal → Prop where
  | store {a : Access} {key : Key} {v : Value} {t : Table} : a.key? = some key → s.Permits key v →
      a.write s.table v = .ok t → Step s { s with table := t, lost := s.lost ∨ s.Loses key v }
  | next {e} : s.table.next s.position = some (some e) → Step s { s with returned := e :: s.returned }

/-- Any number of steps. -/
abbrev Steps : Traversal → Traversal → Prop := Relation.ReflTransGen Step

/-- What has been returned are the first of the keys that had a value at the start, and the others lie
    behind the position, unless that has lost its place. -/
structure Sound (t₀ : Table) (s : Traversal) : Prop where
  parted : s.table.Parted
  returned : s.returned.reverse.map (·.1) <+: liveKeys t₀.places
  ahead : ¬ s.lost → (∀ key ∈ s.position, key ∈ s.table.places.map (·.1)) ∧
    s.returned.reverse.map (·.1) ++ liveKeys (behind s.table.places s.position) = liveKeys t₀.places
  lost : s.lost → ∃ key ∈ s.position, key ∉ s.table.places.map (·.1)

variable {t₀ : Table}

theorem sound_start (ht : t₀.Parted) : Sound t₀ { table := t₀ } where
  parted := ht
  returned := List.nil_prefix
  ahead _ := ⟨by simp [position], rfl⟩
  lost := False.elim

theorem Sound.store (hs : Sound t₀ s) (ht₀ : t₀.Parted) (h : s.Permits key v) :
    Sound t₀ { s with table := s.table.set key v, lost := s.lost ∨ s.Loses key v } := by
  have hv : v.isNil = true ∨ (s.table.get key).isNil = false := h.imp And.left And.right
  refine ⟨hs.parted.set key v, hs.returned, ?_, ?_⟩
  · intro hkept
    obtain ⟨hplaced, horder⟩ := hs.ahead fun hlost => hkept (.inl hlost)
    have hvalue : v.isNil = true → key ∉ liveKeys (behind s.table.places s.position) := by
      intro hnil hmem
      have hreturned : key ∈ s.returned.reverse.map (·.1) := by
        rcases h with ⟨-, hkey⟩ | ⟨hnot, -⟩
        · simpa using hkey
        · rw [hnil] at hnot
          cases hnot
      have hnodup := ht₀.nodup_liveKeys
      rw [← horder, List.nodup_append] at hnodup
      exact hnodup.2.2 _ hreturned _ hmem rfl
    obtain ⟨hplaced', hsame⟩ :=
      hs.parted.behind_set hv hplaced hvalue fun hloses => hkept (.inr hloses)
    refine ⟨hplaced', ?_⟩
    rw [← horder, ← hsame]
    rfl
  · rintro (hlost | ⟨hnil, hposition, hlast, hsize⟩)
    · obtain ⟨k, hk, hnot⟩ := hs.lost hlost
      exact ⟨k, hk, hs.parted.notMem_set hv hnot⟩
    · exact ⟨key, hposition, hlast ▸ hs.parted.notMem_set_last hnil hsize⟩

/-- A traversal that has not lost its way goes on to the next value behind its position. -/
theorem Sound.next_eq (hs : Sound t₀ s) (h : ¬ s.lost) :
    s.table.next s.position = some (firstLive (behind s.table.places s.position)) :=
  next_of_placed (hs.ahead h).1

theorem Sound.next_eq_none (hs : Sound t₀ s) : s.table.next s.position = none ↔ s.lost := by
  constructor
  · intro hnone
    by_contra hkept
    rw [hs.next_eq hkept] at hnone
    cases hnone
  · intro hlost
    obtain ⟨key, hposition, hnot⟩ := hs.lost hlost
    rw [Option.mem_def.mp hposition, Table.next_eq, if_neg hnot]

/-- Where the next value lies, and what is left behind it. -/
theorem Sound.returns (hs : Sound t₀ s) {e : Key × Value}
    (h : s.table.next s.position = some (some e)) :
    ¬ s.lost ∧ e ∈ s.table.places ∧ e.2.isNil = false ∧
      liveKeys (behind s.table.places s.position) = e.1 :: liveKeys (behind s.table.places (some e.1)) := by
  have hkept : ¬ s.lost := fun hlost => by
    rw [hs.next_eq_none.mpr hlost] at h
    cases h
  rw [hs.next_eq hkept, Option.some.injEq] at h
  obtain ⟨hmem, hrest⟩ := live_behind_firstLive hs.parted.nodup_places h
  exact ⟨hkept, hmem, by simpa using List.find?_some h, congrArg (List.map Prod.fst) hrest⟩

theorem Sound.next (hs : Sound t₀ s) {e : Key × Value} (h : s.table.next s.position = some (some e)) :
    Sound t₀ { s with returned := e :: s.returned } := by
  obtain ⟨hkept, hmem, -, hrest⟩ := hs.returns h
  obtain ⟨-, horder⟩ := hs.ahead hkept
  have horder' : (e :: s.returned).reverse.map (·.1) ++
      liveKeys (behind s.table.places (some e.1)) = liveKeys t₀.places := by
    rw [← horder, hrest]
    simp
  refine ⟨hs.parted, ⟨_, horder'⟩, fun _ => ⟨?_, horder'⟩, fun hlost => absurd hlost hkept⟩
  rintro key ⟨⟩
  exact List.mem_map_of_mem hmem

theorem Step.sound (h : Step s s') (ht : t₀.Parted) (hs : Sound t₀ s) : Sound t₀ s' := by
  cases h with
  | next h => exact hs.next h
  | store hkey hpermits hwrite =>
      rw [Access.write_some _ hkey] at hwrite
      cases hwrite
      exact hs.store ht hpermits

theorem Steps.sound (h : Steps { table := t₀ } s) (ht : t₀.Parted) : Sound t₀ s := by
  induction h with
  | refl => exact sound_start ht
  | tail _ hstep ih => exact hstep.sound ht ih

end Traversal

/-! ## What a traversal returns -/

open Traversal in
/-- A traversal of a table, whatever was stored in it before, that sets only returned keys to nil and
    stores values only over values, returns each key that had a value once and no other key, each with
    the value that it has then, and ends. It is refused a key only where nil was stored under the key
    returned last when that was the last key of the array. -/
theorem traversal_complete (writes : List (Access × Value)) {s : Traversal}
    (h : Steps { table := storeAll writes {} } s) :
    (s.table.next s.position = none ↔ s.lost) ∧
    (∀ e, s.table.next s.position = some (some e) →
      e.1 ∉ s.returned.map (·.1) ∧ e.2 = s.table.get e.1 ∧ e.2.isNil = false) ∧
    (s.returned.map (·.1)).Nodup ∧
    (∀ key ∈ s.returned.map (·.1), ((storeAll writes {}).get key).isNil = false) ∧
    s.returned.length ≤ (storeAll writes {}).toList.length ∧
    (s.table.next s.position = some none → s.returned.length = (storeAll writes {}).toList.length ∧
      ∀ key, ((storeAll writes {}).get key).isNil = false → key ∈ s.returned.map (·.1)) := by
  have ht : (storeAll writes {}).Parted := parted_storeAll writes parted_empty
  have hs := Steps.sound h ht
  have hnodup := ht.nodup_liveKeys
  have hreverse : s.returned.reverse.map (·.1) = (s.returned.map (·.1)).reverse := List.map_reverse
  refine ⟨hs.next_eq_none, ?_, ?_, ?_, ?_, ?_⟩
  · intro e he
    obtain ⟨hkept, hmem, hlive, hrest⟩ := hs.returns he
    obtain ⟨-, horder⟩ := hs.ahead hkept
    refine ⟨?_, (hs.parted.get_of_mem hmem).symm, hlive⟩
    rw [← horder, hrest, List.nodup_append] at hnodup
    intro hold
    exact hnodup.2.2 e.1 (by simpa [hreverse] using hold) e.1 List.mem_cons_self rfl
  · have hsub := hnodup.sublist hs.returned.sublist
    rwa [hreverse, List.nodup_reverse] at hsub
  · intro key hkey
    apply ht.mem_liveKeys.mp
    apply hs.returned.mem
    simpa [hreverse] using hkey
  · simpa [liveKeys_places] using hs.returned.length_le
  · intro hend
    have hkept : ¬ s.lost := fun hlost => by
      rw [hs.next_eq_none.mpr hlost] at hend
      cases hend
    obtain ⟨-, horder⟩ := hs.ahead hkept
    rw [hs.next_eq hkept, Option.some.injEq] at hend
    have hnone : liveKeys (behind s.table.places s.position) = [] := by
      apply liveKeys_eq_nil
      simpa using List.find?_eq_none.mp hend
    rw [hnone, List.append_nil, hreverse] at horder
    refine ⟨?_, fun key hkey => ?_⟩
    · simpa [liveKeys_places] using congrArg List.length horder
    · have hmem := ht.mem_liveKeys.mpr hkey
      rw [← horder] at hmem
      simpa using hmem

/-- Nil under the only key, which was returned last: there is no way on from it. -/
example : (({ array := #[.int 10] } : Table).set (.integer 1) .nil).next (some (.integer 1)) = none := by
  decide +kernel

/-- Two values in the array, and an entry. -/
def shelf : List (Access × Value) := [(.int 1, .bool true), (.int 2, .int 5), (.string 7, .int 6)]

open Traversal in
/-- The first value is removed when it has been returned, the last one is replaced before and removed
    after. -/
theorem shelf_traversal_complete : ∃ s : Traversal, Steps { table := storeAll shelf {} } s ∧
    s.returned = [(.string 7, .int 9), (.integer 2, .int 5), (.integer 1, .bool true)] ∧ ¬ s.lost ∧
    s.returned.length = (storeAll shelf {}).toList.length ∧
    ∀ key, ((storeAll shelf {}).get key).isNil = false → key ∈ s.returned.map (·.1) := by
  let first : Key × Value := (.integer 1, .bool true)
  let second : Key × Value := (.integer 2, .int 5)
  let third : Key × Value := (.string 7, .int 9)
  have h : Steps { table := storeAll shelf {} } _ := .single (.next (e := first) (by decide +kernel))
  have h := h.tail (.store (a := .int 1) (v := .nil) rfl (.inl ⟨rfl, List.mem_cons_self⟩) rfl)
  have h := h.tail (.store (a := .string 7) (v := .int 9) rfl (.inr ⟨rfl, by decide +kernel⟩) rfl)
  have h := h.tail (.next (e := second) (by decide +kernel))
  have h := h.tail (.next (e := third) (by decide +kernel))
  have h := h.tail (.store (a := .string 7) (v := .nil) rfl (.inl ⟨rfl, List.mem_cons_self⟩) rfl)
  obtain ⟨hrefused, -, -, -, -, hall⟩ := traversal_complete shelf h
  refine ⟨_, h, rfl, fun hlost => ?_, hall (by decide +kernel)⟩
  cases hrefused.mpr hlost

end Table

end ScriptHost
