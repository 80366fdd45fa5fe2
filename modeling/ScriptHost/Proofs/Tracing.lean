import ScriptHost.Proofs.Heap
import ScriptHost.Proofs.Marking

/-! # Tracing and sweeping the heap

Marking some values and draining marks exactly what they reach, on top of what was marked before.
A sweep then leaves the marked objects with all that they hold, and no others.
-/

namespace ScriptHost.Heap

open Marking (Marked Followed Settled Boxless)

variable {β : Type} {h : Heap β} {r : Ref} {v : Value} {vs : List Value}

/-- What an object holds. -/
inductive Contents (β : Type) where
  | table (t : Table)
  | function (f : Closure β)
  | userdata (u : Userdata) (block : Option (Array UInt8))
  | boxed (i : Int)

/-- The object behind a reference, a userdata with the bytes of its block. -/
def contents? (h : Heap β) (r : Ref) : Option (Contents β) :=
  match r.kind with
  | .table => (h.tables.get? r.slot).map .table
  | .function => (h.functions.get? r.slot).map .function
  | .userdata => (h.userdata.get? r.slot).map fun u =>
      .userdata u ((h.memory.blockAt? u.address).map (·.bytes))
  | .boxed => (h.boxed.get? r.slot).map .boxed

theorem contents?_table {slot : Nat} {t : Table} :
    h.contents? ⟨.table, slot⟩ = some (.table t) ↔ h.tables.get? slot = some t := by
  simp [contents?]

theorem contents?_function {slot : Nat} {f : Closure β} :
    h.contents? ⟨.function, slot⟩ = some (.function f) ↔ h.function? slot = some f := by
  simp [contents?, function?]

theorem contents?_boxed {slot : Nat} {i : Int} :
    h.contents? ⟨.boxed, slot⟩ = some (.boxed i) ↔ h.boxed.get? slot = some i := by
  simp [contents?]

/-! ## References -/

theorem boxless_references : Boxless h.references := by
  rintro ⟨kind, slot⟩ rfl
  rfl

/-- The collector follows what an object holds. -/
theorem mem_references : v ∈ h.references r ↔ h.Holds r v := by
  obtain ⟨kind, slot⟩ := r
  constructor
  · intro hv
    cases kind with
    | table =>
        simp only [references] at hv
        split at hv
        · rename_i t ht
          simp only [Table.references, List.mem_append, Option.mem_toList, Option.map_eq_some_iff,
            List.mem_map, List.mem_filterMap, Prod.exists, Array.mem_toList_iff] at hv
          rcases hv with ⟨mt, hmt, rfl⟩ | (hitem | ⟨k, w, he, rfl⟩) | ⟨k, w, he, hk⟩
          · exact .tableMeta ht hmt
          · exact .item ht hitem
          · exact .entry ht he
          · cases k <;> simp at hk
            · obtain ⟨hnil, rfl⟩ := hk
              exact .objectKey ht he hnil
            · obtain ⟨hnil, rfl⟩ := hk
              exact .foreignKey ht he hnil
        · simp at hv
    | function =>
        simp only [references] at hv
        cases hf : h.functions.get? slot with
        | none => simp [hf] at hv
        | some f =>
            simp only [hf, Option.map_some, Option.getD_some, Array.mem_toList_iff] at hv
            exact .upvalue hf hv
    | userdata =>
        simp only [references] at hv
        split at hv
        · rename_i u hu
          simp only [List.mem_append, Option.mem_toList, Option.map_eq_some_iff,
            List.mem_singleton] at hv
          rcases hv with ⟨mt, hmt, rfl⟩ | rfl
          · exact .userMeta hu hmt
          · exact .userValue hu
        · simp at hv
    | boxed => simp [references] at hv
  · intro hv
    cases hv with
    | item ht hv => simp [references, ht, Table.references, hv]
    | entry ht he =>
        simp only [references, ht, Table.references, List.mem_append, List.mem_map]
        exact .inr (.inl (.inr ⟨_, he, rfl⟩))
    | objectKey ht he hnil | foreignKey ht he hnil =>
        simp only [references, ht, Table.references, List.mem_append, List.mem_filterMap]
        exact .inr (.inr ⟨_, he, by simp [hnil]⟩)
    | tableMeta ht hmt => simp [references, ht, hmt]
    | upvalue hf hv => simp [references, hf, hv]
    | userMeta hu hmt => simp [references, hu, hmt]
    | userValue hu => simp [references, hu]

theorem references_eq_nil (hr : h.contents? r = none) : h.references r = [] := by
  obtain ⟨kind, slot⟩ := r
  cases kind <;>
    simp only [contents?, Option.map_eq_none_iff] at hr <;> simp [references, hr]

theorem contents?_of_holds (hv : h.Holds r v) : h.contents? r ≠ none := by
  intro hnone
  have hmem := mem_references.mpr hv
  rw [references_eq_nil hnone] at hmem
  cases hmem

/-- Objects with the same contents hold the same. -/
theorem holds_congr {h' : Heap β} (hr : h'.contents? r = h.contents? r) (hv : h.Holds r v) :
    h'.Holds r v := by
  have huser : ∀ {slot u}, h'.contents? ⟨.userdata, slot⟩ = h.contents? ⟨.userdata, slot⟩ →
      h.userdata.get? slot = some u → h'.userdata.get? slot = some u := by
    intro slot u heq hu
    simp only [contents?, hu, Option.map_some, Option.map_eq_some_iff] at heq
    obtain ⟨u', hu', heq⟩ := heq
    obtain ⟨rfl, -⟩ := Contents.userdata.inj heq
    exact hu'
  cases hv with
  | item ht hv => exact .item (contents?_table.mp (hr.trans (contents?_table.mpr ht))) hv
  | entry ht hv => exact .entry (contents?_table.mp (hr.trans (contents?_table.mpr ht))) hv
  | objectKey ht hv hnil =>
      exact .objectKey (contents?_table.mp (hr.trans (contents?_table.mpr ht))) hv hnil
  | foreignKey ht hv hnil =>
      exact .foreignKey (contents?_table.mp (hr.trans (contents?_table.mpr ht))) hv hnil
  | tableMeta ht hv => exact .tableMeta (contents?_table.mp (hr.trans (contents?_table.mpr ht))) hv
  | upvalue hf hv => exact .upvalue (contents?_function.mp (hr.trans (contents?_function.mpr hf))) hv
  | userMeta hu hv => exact .userMeta (huser hr hu) hv
  | userValue hu => exact .userValue (huser hr hu)

theorem Reaches.mono {p q : Value → Prop} (hpq : ∀ v, p v → q v) (hr : h.Reaches p r) :
    h.Reaches q r := by
  induction hr with
  | start hv hr => exact .start (hpq _ hv) hr
  | step _ hv hr ih => exact .step ih hv hr

/-! ## Tracing -/

/-- Nothing is pending, and what marked objects refer to is marked. -/
structure Traced (h : Heap β) : Prop where
  settled : h.marking.Settled h.references
  pending : h.marking.pending = []

/-- Only slots without an object count as marked when a cycle starts. -/
theorem not_marked_prepare (hr : h.contents? r ≠ none) : ¬ h.prepare.marking.Marked r := by
  obtain ⟨kind, slot⟩ := r
  have hlt : ∀ {α : Type} {a : Arena α}, a.get? slot ≠ none →
      ¬ ((Array.replicate a.slots.size false)[slot]?.getD true = true) := by
    intro α a hget
    obtain ⟨x, hx⟩ := Option.ne_none_iff_exists'.mp hget
    simp [Arena.lt_size hx]
  cases kind <;> exact hlt (by simpa [contents?] using hr)

theorem traced_prepare : h.prepare.Traced := by
  refine ⟨fun r hr => .inr fun v hv => ?_, rfl⟩
  have hnone : h.contents? r = none := by
    by_contra hsome
    exact not_marked_prepare hsome hr
  have hnil : h.prepare.references r = [] := references_eq_nil hnone
  rw [hnil] at hv
  cases hv

theorem propagate_markAll : ((h.markAll vs).propagate).2 =
    { h with marking := (((h.marking.visitAll vs).drain h.references)).2 } := rfl

theorem Traced.propagate (ht : h.Traced) : ((h.markAll vs).propagate).2.Traced :=
  ⟨Marking.drain_settled boxless_references (ht.settled.visitAll boxless_references),
    Marking.drain_pending⟩

/-- Tracing marks what is reached, and leaves other marks as they were. -/
theorem Traced.marked_propagate (ht : h.Traced) :
    ((h.markAll vs).propagate).2.marking.Marked r ↔
      h.marking.Marked r ∨ h.Reaches (· ∈ vs) r := by
  rw [propagate_markAll]
  constructor
  · intro hr
    have hwithin := Marking.drain_within (P := h.Reaches (· ∈ vs))
      (fun s hs => by
        rcases Marking.mem_pending_visitAll hs with hs | ⟨v, hv, hvs⟩
        · simp [ht.pending] at hs
        · exact .start hv hvs)
      (fun s hs v hv t hvt => .step hs (mem_references.mp hv) hvt) hr
    rcases hwithin with hvisit | hreach
    · rcases Marking.marked_visitAll.mp hvisit with hr | ⟨v, hv, hvr⟩
      · exact .inl hr
      · exact .inr (.start hv hvr)
    · exact .inr hreach
  · rintro (hr | hr)
    · exact Marking.drain_marked (Marking.marked_visitAll.mpr (.inl hr))
    · induction hr with
      | start hv hr => exact Marking.drain_marked (Marking.marked_visitAll.mpr (.inr ⟨_, hv, hr⟩))
      | step _ hv hr ih =>
          exact Marking.drain_closed boxless_references
            (ht.settled.visitAll boxless_references) ih _ (mem_references.mpr hv) _ hr

/-! ## Sweeping -/

variable {s : Ref}

/-- The objects without a mark. -/
def unmarkedRefs (h : Heap β) : List Ref :=
  (h.tables.garbage h.marking.marks.tables).map (⟨.table, ·.1⟩) ++
    (h.functions.garbage h.marking.marks.functions).map (⟨.function, ·.1⟩) ++
    (h.userdata.garbage h.marking.marks.userdata).map (⟨.userdata, ·.1⟩) ++
    (h.boxed.garbage h.marking.marks.boxed).map (⟨.boxed, ·.1⟩)

theorem sweep_freed : h.sweep.1 = h.unmarkedRefs.length := by
  simp [sweep, unmarkedRefs, Nat.add_assoc]

private theorem mem_garbage_refs {α : Type} {a : Arena α} {marks : Array Bool} {kind : ObjectKind} :
    s ∈ (a.garbage marks).map (⟨kind, ·.1⟩) ↔
      s.kind = kind ∧ a.get? s.slot ≠ none ∧ ¬ Arena.kept marks s.slot := by
  rw [← Arena.mem_garbage_slots]
  obtain ⟨kind', slot⟩ := s
  simp only [List.mem_map, Ref.mk.injEq]
  constructor
  · rintro ⟨e, he, rfl, rfl⟩
    exact ⟨rfl, e, he, rfl⟩
  · rintro ⟨rfl, e, he, rfl⟩
    exact ⟨e, he, rfl, rfl⟩

theorem mem_unmarkedRefs :
    s ∈ h.unmarkedRefs ↔ h.contents? s ≠ none ∧ ¬ h.marking.Marked s := by
  simp only [unmarkedRefs, List.mem_append, mem_garbage_refs]
  obtain ⟨kind, slot⟩ := s
  cases kind <;> simp [contents?, Marked, Marks.contains, Marks.of, Arena.kept]

theorem unmarkedRefs_nodup : h.unmarkedRefs.Nodup := by
  have hrefs : ∀ {α : Type} (a : Arena α) (marks : Array Bool) (kind : ObjectKind),
      ((a.garbage marks).map fun e => (⟨kind, e.1⟩ : Ref)).Nodup := by
    intro α a marks kind
    have hslots := Arena.garbage_nodup a marks
    rw [List.Nodup, List.pairwise_map] at hslots ⊢
    exact hslots.imp fun hne heq => hne (Ref.mk.inj heq).2
  have hapart : ∀ {l l' : List Ref}, l.Nodup → l'.Nodup → (∀ s ∈ l, ∀ t ∈ l', s.kind ≠ t.kind) →
      (l ++ l').Nodup := by
    intro l l' hl hl' hkind
    refine List.nodup_append.mpr ⟨hl, hl', fun s hs t ht heq => hkind s hs t ht (by rw [heq])⟩
  refine hapart (hapart (hapart (hrefs _ _ _) (hrefs _ _ _) ?_) (hrefs _ _ _) ?_) (hrefs _ _ _) ?_
  all_goals
    intro s hs t ht
    simp only [List.mem_append, mem_garbage_refs] at hs ht
    rw [ht.1]
    intro heq
    simp [heq] at hs

/-- The block of a userdata that marks keep is not given up. -/
theorem address_not_freed (hs : h.Sound) {marks : Array Bool} {slot : Nat} {u : Userdata}
    (hu : h.userdata? slot = some u) (hk : Arena.kept marks slot) :
    u.address ∉ (h.userdata.garbage marks).map (·.2.address) := by
  rw [List.mem_map]
  rintro ⟨⟨t, w⟩, hw, heq⟩
  obtain ⟨hwt, hgone⟩ := Arena.mem_garbage.mp hw
  rw [hs.address_inj hu hwt heq.symm] at hk
  exact hgone hk

/-- A sweep leaves marked objects with all that they hold and no others. -/
theorem contents?_sweep (hs : h.Sound) :
    h.sweep.2.contents? s = if h.marking.marks.contains s then h.contents? s else none := by
  obtain ⟨kind, slot⟩ := s
  cases kind with
  | table | function | boxed =>
      simp only [contents?, sweep, Arena.get?_sweep]
      split <;> rename_i hk <;> simp [Arena.kept] at hk <;> simp [Marks.contains, Marks.of, hk]
  | userdata =>
      simp only [contents?, sweep, Arena.get?_sweep]
      split
      · rename_i hk
        have hmark : h.marking.marks.contains ⟨.userdata, slot⟩ = true := hk
        rw [if_pos hmark]
        cases hu : h.userdata.get? slot with
        | none => rfl
        | some u =>
            obtain ⟨b, hb, hbase, -, -⟩ := hs.block hu
            have hat := hbase ▸ Memory.blockAt?_base hs.memory hb
            have hkeep := hbase ▸ address_not_freed hs hu hk
            simp only [Option.map_some, hat, Memory.blockAt?_free hs.memory hat hkeep]
      · rename_i hk
        have hmark : ¬ h.marking.marks.contains ⟨.userdata, slot⟩ = true := hk
        rw [if_neg hmark]
        rfl

theorem sweep_sound (hs : h.Sound) : h.sweep.2.Sound := by
  have hget : ∀ {slot u}, h.sweep.2.userdata? slot = some u →
      h.userdata? slot = some u ∧ Arena.kept h.marking.marks.userdata slot := by
    intro slot u hu
    simp only [userdata?, sweep, Arena.get?_sweep] at hu
    split at hu
    · rename_i hk
      exact ⟨hu, hk⟩
    · cases hu
  refine hs.inherit (fun {slot u} hu => ⟨u, (hget hu).1, rfl, rfl, rfl⟩)
    (Arena.sweep_sound hs.tables) (Arena.sweep_sound hs.functions) (Arena.sweep_sound hs.userdata)
    (Arena.sweep_sound hs.boxed) (Memory.free_sound hs.memory) rfl rfl fun {slot u b} hu hb hbase => ?_
  obtain ⟨hu, hkept⟩ := hget hu
  exact ⟨b, Memory.mem_free.mpr ⟨hb, hbase ▸ address_not_freed hs hu hkept⟩, rfl, rfl, rfl⟩

theorem live_sweep : h.sweep.1 + h.sweep.2.live = h.live := by
  have htables := Arena.live_sweep h.tables h.marking.marks.tables
  have hfunctions := Arena.live_sweep h.functions h.marking.marks.functions
  have huserdata := Arena.live_sweep h.userdata h.marking.marks.userdata
  have hboxed := Arena.live_sweep h.boxed h.marking.marks.boxed
  simp only [sweep, live]
  omega

end ScriptHost.Heap
