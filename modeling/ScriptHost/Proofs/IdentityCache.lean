import ScriptHost.IdentityCache

/-! # Looking up what was remembered

A key that was remembered last leads to its value; all other keys lead where they led before.
-/

namespace ScriptHost.IdentityCache

variable {φ : Type} [DecidableEq φ] {c : IdentityCache φ} {key key' : CacheKey φ} {v : Value}

theorem get?_erase : (c.erase key).get? key' = if key' = key then none else c.get? key' := by
  unfold erase get?
  dsimp only
  induction c.entries with
  | nil => simp
  | cons entry rest ih =>
      obtain ⟨k, w⟩ := entry
      by_cases hk : k = key
      · subst hk
        rw [List.filter_cons_of_neg (by simp), ih, List.lookup_cons]
        by_cases hkey : key' = k
        · simp [hkey]
        · simp [hkey, beq_false_of_ne hkey]
      · rw [List.filter_cons_of_pos (by simpa using hk), List.lookup_cons, List.lookup_cons, ih]
        by_cases hkey : key' = k
        · simp [hkey, hk]
        · simp [beq_false_of_ne hkey]

theorem get?_insert : (c.insert key v).get? key' =
    if key' = key then (if v.isNil then none else some v) else c.get? key' := by
  unfold insert
  dsimp only
  split
  · rw [get?_erase]
  · rw [get?, List.lookup_cons]
    by_cases hkey : key' = key
    · simp [hkey]
    · have hrest : (c.erase key).get? key' = c.get? key' := by rw [get?_erase, if_neg hkey]
      rw [beq_false_of_ne hkey, if_neg hkey]
      exact hrest

/-- Only entries are looked up. -/
theorem mem_entries (h : c.get? key = some v) : (key, v) ∈ c.entries := by
  unfold get? at h
  induction hentries : c.entries generalizing c with
  | nil =>
      rw [hentries] at h
      cases h
  | cons entry rest ih =>
      obtain ⟨k, w⟩ := entry
      rw [hentries, List.lookup_cons] at h
      by_cases hkey : key = k
      · subst hkey
        simp only [beq_self_eq_true, Option.some.injEq] at h
        exact h ▸ List.mem_cons_self
      · rw [beq_false_of_ne hkey] at h
        exact List.mem_cons_of_mem _ (ih (c := { c with entries := rest }) h rfl)

end ScriptHost.IdentityCache
