import ScriptHost.Proofs.Growth
import ScriptHost.Proofs.Rendering
import ScriptHost.Proofs.Spec

/-! # Building data on a stack

A machine that starts from another and builds data on top of its stack leaves all that the other one
reached alone. What it makes lies in new places, so that storing in a table that it made changes
neither other tables nor anything that was there before.
-/

namespace ScriptHost.Machine

variable {start m m' : Machine} {ρ : Nat → Ref} {made : List Made} {xs ys : List Datum}
  {vs ws : List Value} {x k : Datum} {v : Value} {key : Key} {es es' : Entries} {t : Table}
  {what : Made} {r : Ref} {id slot : Nat}

/-- On top of the stack of `start` a machine has values that stand for data. -/
structure Built (start : Machine) (made : List Made) (ρ : Nat → Ref) (xs : List Datum)
    (vs : List Value) (m : Machine) : Prop where
  framed : start.Framed
  agrees : Agrees made ρ xs vs m
  stack : m.stack.toList = start.stack.toList ++ vs
  others : ∃ stack heap strings events, m = { start with stack, heap, strings, events }
  sound : m.heap.Sound
  pool : m.strings.Sound
  quiet : m.NoFinalizers
  /-- What was there before stays. -/
  kept : ∀ {r}, start.Has r → m.heap.contents? r = start.heap.contents? r
  /-- What was made was not there before, and is not the metatable of anything. -/
  fresh : ∀ {id}, Live made xs id → ¬ start.Has (ρ id)
  apart : ∀ {id mt}, Live made xs id → m.IsMetatable mt → ρ id ≠ ⟨.table, mt⟩

theorem built_self (hframed : m.Framed) (hm : m.heap.Sound) (hpool : m.strings.Sound)
    (hquiet : m.NoFinalizers) : Built m [] ρ [] [] m := by
  have hlive : ∀ {id}, ¬ Live [] [] id := by
    intro id h
    induction h with
    | root h => cases h
    | step _ _ _ ih => exact ih
  exact ⟨hframed, ⟨.nil, fun h => (hlive h).elim, fun h => (hlive h).elim⟩, by simp, ⟨_, _, _, _, rfl⟩, hm,
    hpool, hquiet, fun _ => rfl, fun h => (hlive h).elim, fun h => (hlive h).elim⟩

namespace Built

/-! ## Roots -/

theorem isRoot (h : Built start made ρ xs vs m) (hv : v ∈ vs) : m.IsRoot v := by
  refine .stack (Array.mem_toList_iff.mp ?_)
  rw [h.stack]
  exact List.mem_append_right _ hv

theorem isRoot_start (h : Built start made ρ xs vs m) (hv : start.IsRoot v) : m.IsRoot v := by
  have hstack := h.stack
  obtain ⟨stack, heap, strings, events, rfl⟩ := h.others
  cases hv with
  | stack hv =>
      refine .stack (Array.mem_toList_iff.mp ?_)
      rw [hstack]
      exact List.mem_append_left _ (Array.mem_toList_iff.mpr hv)
  | registry => exact .registry
  | globals => exact .globals
  | cached hv => exact .cached hv
  | handler hg hv => exact .handler hg hv
  | raised hg hd => exact .raised hg hd
  | outcome hg hd => exact .outcome hg hd

/-- What was there before is still there and reached. -/
theorem has (h : Built start made ρ xs vs m) (hr : start.Has r) : m.Has r := by
  refine ⟨?_, h.kept hr ▸ hr.2⟩
  obtain ⟨hreach, -⟩ := hr
  induction hreach with
  | start hv hr => exact .start (h.isRoot_start hv) hr
  | @step r v r' hreach hv hr ih =>
      refine .step ih ?_ hr
      have hhas : start.Has r := ⟨hreach, Heap.contents?_of_holds hv⟩
      exact Heap.holds_congr (h.kept hhas) hv

theorem has_object (h : Built start made ρ xs vs m) (hid : Live made xs id) : m.Has (ρ id) := by
  obtain ⟨x, -, hmakes⟩ := h.agrees.objects hid
  exact ⟨h.agrees.reached (fun _ => h.isRoot) hid, hmakes.contents⟩

theorem laid (h : Built start made ρ xs vs m) : Laid start.base (start.stack.toList ++ vs) m := by
  have hstack := h.stack
  obtain ⟨stack, heap, strings, events, rfl⟩ := h.others
  exact ⟨rfl, hstack⟩

/-! ## Growing -/

theorem grow (h : Built start made ρ xs vs m) (hgrow : m.Grows m') : Built start made ρ xs vs m' := by
  have hboxed : ∀ {slot i}, m.Reached ⟨.boxed, slot⟩ → m.heap.boxed.get? slot = some i →
      m'.heap.boxed.get? slot = some i := by
    intro slot i hreach hi
    have hthere := Heap.contents?_boxed.mpr hi
    exact Heap.contents?_boxed.mp ((hgrow.contents ⟨hreach, by simp [hthere]⟩).trans hthere)
  have hstack := h.stack
  obtain ⟨stack, heap, strings, events, hothers⟩ := h.others
  obtain ⟨heap', strings', events', hothers'⟩ := hgrow.others
  refine ⟨h.framed, ⟨forall₂_keep h.agrees.values fun x _ v hv hx => ?_, fun hid => ?_,
    h.agrees.distinct⟩, ?_, ?_, hgrow.sound h.sound, hgrow.pool h.pool, hgrow.noFinalizers h.quiet,
    fun hr => (hgrow.contents (h.has hr)).trans (h.kept hr), h.fresh,
    fun hid hmt => h.apart hid (hgrow.metatables hmt).1⟩
  · exact hx.keep (fun hbox hi => hboxed (.start (h.isRoot (hbox ▸ hv)) rfl) hi) hgrow.strings
      fun _ _ => rfl
  · obtain ⟨what, hwhat, hmakes⟩ := h.agrees.objects hid
    have hhas := h.has_object hid
    exact ⟨what, hwhat, hmakes.keep (hgrow.contents hhas)
      (fun hheld hi => hboxed (.step hhas.1 hheld rfl) hi) hgrow.strings fun _ _ _ => rfl⟩
  · rw [hothers']
    exact hstack
  · exact ⟨stack, heap', strings', events', by rw [hothers', hothers]⟩

/-! ## Pushing -/

/-- A value that is no new object. -/
theorem push (h : Built start made ρ xs vs m) (hx : Renders m ρ x v)
    (hold : ∀ id, x = .object id → Live made xs id) :
    Built start made ρ (xs ++ [x]) (vs ++ [v]) (m.push v) := by
  obtain ⟨stack, heap, strings, events, hothers⟩ := h.others
  refine ⟨h.framed, (h.agrees.push hx hold).of_eq rfl rfl, ?_,
    ⟨_, heap, strings, events, by rw [hothers]; rfl⟩, h.sound, h.pool, h.quiet, h.kept,
    fun hid => h.fresh (hid.of_push hold), fun hid => h.apart (hid.of_push hold)⟩
  rw [Machine.push, Array.toList_push, h.stack, List.append_assoc]

/-- A new object. -/
theorem make {heap : Heap Native} {c : Heap.Contents Native} (h : Built start made ρ xs vs m)
    (hmade : m.heap.Allocates heap r c) (hmakes : ∀ ρ, Makes { m with heap } ρ what r)
    (hbare : ∀ es, what = .table es → es = ∅) :
    Built start (made ++ [what]) (Function.update ρ made.length r) (xs ++ [.object made.length])
      (vs ++ [.object r]) ({ m with heap }.push (.object r)) := by
  have h' := h.grow (grows_allocates hmade)
  have hnew : ∀ {id}, Live made xs id → ρ id ≠ r := by
    rintro id hid rfl
    exact (h.has_object hid).2 hmade.fresh
  have hplace : ∀ {id}, Live (made ++ [what]) (xs ++ [.object made.length]) id →
      Function.update ρ made.length r id = r ∨
      Live made xs id ∧ Function.update ρ made.length r id = ρ id := by
    intro id hid
    rcases hid.of_make h.agrees.lt hbare with rfl | hid
    · exact .inl (Function.update_self ..)
    · exact .inr ⟨hid, Function.update_of_ne (Nat.ne_of_lt (h.agrees.lt hid)) ..⟩
  obtain ⟨stack, heap', strings, events, hothers⟩ := h.others
  refine ⟨h.framed, (h'.agrees.make hnew hmakes hbare).of_eq rfl rfl, ?_,
    ⟨_, heap, strings, events, by rw [hothers]; rfl⟩, h'.sound, h'.pool, h'.quiet, h'.kept,
    fun {id} hid => ?_, fun {id mt} hid hmt => ?_⟩
  · rw [Machine.push, Array.toList_push, h.stack, List.append_assoc]
  · rcases hplace hid with heq | ⟨hid, heq⟩ <;> rw [heq]
    · exact fun hr => (h.has hr).2 hmade.fresh
    · exact h.fresh hid
  · rcases hplace hid with heq | ⟨hid, heq⟩ <;> rw [heq]
    · rintro rfl
      obtain ⟨t, ht, -⟩ := h.quiet mt ((grows_allocates hmade).metatables hmt).1
      have hfresh := hmade.fresh
      rw [Heap.contents?_table.mpr ht] at hfresh
      cases hfresh
    · exact h'.apart hid hmt

theorem pushInt (h : Built start made ρ xs vs m) (i : Int) :
    ∃ v, Built start made ρ (xs ++ [.int i]) (vs ++ [v]) (m.pushInt i) := by
  cases hfits : Value.fitsInline i with
  | true => exact ⟨_, pushInt_inline hfits ▸ h.push (.int i) nofun⟩
  | false =>
      have hmade := Heap.allocates_newBoxed h.sound i
      exact ⟨_, pushInt_newBoxed hfits ▸ (h.grow (grows_allocates hmade)).push
        (.boxed (Heap.contents?_boxed.mp hmade.object)) nofun⟩

theorem pushText (h : Built start made ρ xs vs m) (s : String) :
    ∃ v, Built start made ρ (xs ++ [.text (Utf8.encode s)]) (vs ++ [v]) (m.pushText s) :=
  ⟨_, (h.grow (grows_intern h.pool _)).push (.text StringPool.intern_found) nofun⟩

theorem newTable (h : Built start made ρ xs vs m) (host : Host) : ∃ ρ slot m',
    (Act.newTable : Act Empty Unit) host m = .ok () m' ∧
      Built start (made ++ [.table ∅]) ρ (xs ++ [.object made.length]) (vs ++ [.table slot]) m' := by
  obtain ⟨m₁, hrun, hgrow⟩ := Act.collectIfDue_grows (ε := Empty) host h.sound h.quiet
  have h₁ := h.grow hgrow
  have hmade := Heap.allocates_newTable h₁.sound
  refine ⟨_, _, _, (Act.bind_ok hrun).trans rfl, h₁.make hmade (fun ρ => ?_) fun _ hes => ?_⟩
  · exact .table (Heap.contents?_table.mp hmade.object) tabulates_empty
  · exact (Made.table.inj hes).symm

theorem pushNative (h : Built start made ρ xs vs m) (code : NativeCode) (host : Host) : ∃ ρ v m',
    (Act.pushNative code : Act Empty Unit) host m = .ok () m' ∧
      Built start (made ++ [.function code]) ρ (xs ++ [.object made.length]) (vs ++ [v]) m' := by
  obtain ⟨m₁, hrun, hgrow⟩ := Act.collectIfDue_grows (ε := Empty) host h.sound h.quiet
  have h₁ := h.grow hgrow
  obtain ⟨f, rfl, hpush⟩ := Act.pushNative_ok code hrun
  have hmade := Heap.allocates_newFunction h₁.sound
    { body := { behaviour := .code code, origin := .host }, upvalues := #[] }
  refine ⟨_, _, _, hpush, h₁.make hmade (fun ρ => ?_) nofun⟩
  · exact .function (Heap.contents?_function.mp hmade.object)

/-! ## Storing -/

/-- One entry more in a table that was made. -/
theorem setEntry (h : Built start made ρ xs vs m) (hid : Live made xs id)
    (hes : made[id]? = some (.table es)) (hslot : ρ id = ⟨.table, slot⟩)
    (ht : m.heap.tables.get? slot = some t)
    (hmentions : ∀ {j}, es'.Mentions j → es.Mentions j ∨ .object j ∈ xs)
    (htab : Tabulates m ρ es' (t.set key v)) :
    Built start (made.set id (.table es')) ρ xs vs (m.setEntry slot key v) := by
  have hlive := fun {j} (hj : Live _ _ j) => hj.of_set hes hmentions
  obtain ⟨stack, heap, strings, events, hothers⟩ := h.others
  refine ⟨h.framed, h.agrees.setEntry hid hes hslot ht hmentions htab, h.stack,
    ⟨stack, _, strings, events, by rw [hothers]; rfl⟩, (Heap.Change.entry slot key v).sound h.sound,
    h.pool, fun mt hmt => ?_, fun hr => ?_, fun hj => h.fresh (hlive hj),
    fun hj => h.apart (hlive hj)⟩
  · obtain ⟨u, hu, hnil⟩ := h.quiet mt hmt
    refine ⟨u, ?_, hnil⟩
    rw [tables_setEntry, if_neg]
    · exact hu
    · rintro rfl
      exact h.apart hid hmt hslot
  · rw [contents?_setEntry]
    · exact h.kept hr
    · rintro rfl
      exact h.fresh hid (hslot ▸ hr)

/-- The values on top are dropped. -/
theorem drop (h : Built start made ρ (xs ++ ys) (vs ++ ws) m) (hlength : xs.length = vs.length)
    {n : Nat} (hn : n = ws.length) : Built start made ρ xs vs (m.pop n) := by
  have hlive : ∀ {id}, Live made xs id → Live made (xs ++ ys) id :=
    fun hid => hid.mono (List.subset_append_left xs ys)
  have hvalues := List.forall₂_take xs.length h.agrees.values
  rw [List.take_left, hlength, List.take_left] at hvalues
  have hagrees : Agrees made ρ xs vs m :=
    ⟨hvalues, fun hid => h.agrees.objects (hlive hid),
      fun hi hj => h.agrees.distinct (hlive hi) (hlive hj)⟩
  have hlaid := h.laid
  rw [← List.append_assoc] at hlaid
  have hbase : start.base ≤ (start.stack.toList ++ vs).length := by
    rw [List.length_append, Array.length_toList]
    exact Nat.le_add_right_of_le h.framed
  obtain ⟨stack, heap, strings, events, hothers⟩ := h.others
  exact ⟨h.framed, hagrees.of_eq rfl rfl, (hlaid.pop hbase hn).stack,
    ⟨_, heap, strings, events, by rw [hothers]; rfl⟩, h.sound, h.pool, h.quiet, h.kept,
    fun hid => h.fresh (hlive hid), fun hid => h.apart (hlive hid)⟩

/-- A table on the stack, below some values, is one that was made. -/
theorem table_of_last (h : Built start made ρ (xs ++ ys) (vs ++ ws) m)
    (hlength : xs.length = vs.length) (hlast : vs.getLast? = some (.table slot)) :
    ∃ id es t, xs.getLast? = some (.object id) ∧ Live made (xs ++ ys) id ∧
      made[id]? = some (.table es) ∧ ρ id = ⟨.table, slot⟩ ∧ m.heap.tables.get? slot = some t ∧
      Tabulates m ρ es t := by
  have hvalues := List.forall₂_take xs.length h.agrees.values
  rw [List.take_left, hlength, List.take_left] at hvalues
  obtain ⟨vs, rfl⟩ := List.getLast?_eq_some_iff.mp hlast
  obtain ⟨xs, x, rfl, -, hx⟩ := exists_concat hvalues
  generalize hv : Value.table slot = v at hx
  cases hx with
  | object id =>
      have hslot : ρ id = ⟨.table, slot⟩ := (Value.object.inj hv).symm
      have hid : Live made (xs ++ [.object id] ++ ys) id := .root (by simp)
      obtain ⟨what, hwhat, hmakes⟩ := h.agrees.objects hid
      rw [hslot] at hmakes
      cases hmakes with
      | table ht htab => exact ⟨id, _, _, by simp, hid, hwhat, hslot, ht, htab⟩
  | nil | bool | int | boxed | number | text | light => cases hv

/-- The value on top is appended to the table below it. -/
theorem append {σ : Supply} (h : Built start σ.made ρ (xs ++ [x]) (vs ++ [v]) m)
    (hlast : vs.getLast? = some (.table slot)) : ∃ id, xs.getLast? = some (.object id) ∧
      Built start (σ.contribute id (.value x)).made ρ xs vs
        ((m.setEntry slot (.integer ((m.heap.table slot).length + 1)) v).pop 1) := by
  obtain ⟨hvalues, hx⟩ := forall₂_concat.mp h.agrees.values
  obtain ⟨id, es, t, hid, hlive, hes, hslot, ht, htab⟩ := h.table_of_last hvalues.length_eq hlast
  have hmentions : ∀ {j}, (es.append x).Mentions j → es.Mentions j ∨ .object j ∈ xs ++ [x] :=
    fun hj => (Entries.mentions_append hj).imp_right fun hx => by simp [hx]
  refine ⟨id, hid, ?_⟩
  rw [Supply.made_contribute hes, Heap.table, ht]
  exact (h.setEntry hlive hes hslot ht hmentions (htab.append h.pool hx)).drop hvalues.length_eq rfl

/-- The value on top is stored in the table below it under the key between them. -/
theorem insert {σ : Supply} {x₀ : Datum} {w : Value}
    (h : Built start σ.made ρ (xs ++ [x₀] ++ [x]) (vs ++ [w] ++ [v]) m)
    (hlast : vs.getLast? = some (.table slot)) (hkey : x₀.key? = some k) (hx : x ≠ .nil) :
    ∃ id key, xs.getLast? = some (.object id) ∧ m.heap.key? w = some key ∧
      Built start (σ.contribute id (.entry k x)).made ρ xs vs ((m.setEntry slot key v).pop 2) := by
  obtain ⟨hvalues, hv⟩ := forall₂_concat.mp h.agrees.values
  obtain ⟨hvalues, hw⟩ := forall₂_concat.mp hvalues
  rw [List.append_assoc, List.append_assoc] at h
  obtain ⟨id, es, t, hid, hlive, hes, hslot, ht, htab⟩ := h.table_of_last hvalues.length_eq hlast
  have hroot : ∀ {j}, x₀ = .object j → Live σ.made (xs ++ ([x₀] ++ [x])) j :=
    fun hj => .root (by simp [hj])
  obtain ⟨key, hkey?, hname⟩ := hw.key? hkey fun j hj => by
    obtain ⟨what, -, hmakes⟩ := h.agrees.objects (hroot hj)
    exact hmakes.kind
  have hmentions : ∀ {j}, Entries.Mentions (es.insert k x) j →
      es.Mentions j ∨ .object j ∈ xs ++ ([x₀] ++ [x]) := by
    intro j hj
    rcases Entries.mentions_insert hj with hj | rfl | rfl
    · exact .inl hj
    · simp [Datum.eq_of_key?_object hkey]
    · simp
  have htab' : Tabulates m ρ (es.insert k x) (t.set key v) := by
    refine htab.insert h.pool hname hv hx fun {i j} hi hj heq => ?_
    subst hi
    exact h.agrees.distinct (hroot (Datum.eq_of_key?_object hkey)) (.step hlive hes (.inl hj)) heq
  refine ⟨id, key, hid, hkey?, ?_⟩
  rw [Supply.made_contribute hes]
  exact (h.setEntry hlive hes hslot ht hmentions htab').drop hvalues.length_eq rfl

end Built

end ScriptHost.Machine
