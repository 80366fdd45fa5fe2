import ScriptHost.Program.CallStep
import ScriptHost.Proofs.Careful.Index

/-! # Native code

What a native function may be made of: the operations of a machine, one after the other, with what it
learns from their results. Between two operations it keeps no object on the host's side, except that an
error of one operation may be passed on. Such code is careful.
-/

namespace ScriptHost

open Raises (raised?)

namespace Machine

/-- A value that code can take from a machine: one that is no object, or one that is kept there. -/
inductive Finds (m : Machine) : Value → Prop where
  | plain {v} : v.ref? = none → Finds m v
  | value (i) : Finds m (m.value i)
  | cached {key v} : (key, v) ∈ m.cache.entries → Finds m v
  | held {r v} : m.heap.Holds r v → Finds m v

/-- A step of native code that runs no other code and cannot fail. -/
inductive Edit (m : Machine) : Machine → Prop where
  | push {v} : m.Finds v → Edit m (m.push v)
  | put (p) {v} : m.Finds v → Edit m (m.putAt p v)
  | setTop (n) : Edit m (m.setTop n)
  | pop (n) : Edit m (m.pop n)
  | integer (n) : Edit m (m.pushInt n)
  | intern (bytes) : Edit m (m.intern bytes).2
  | remember (key) {v} : m.Finds v → Edit m { m with cache := m.cache.insert key v }
  | token : Edit m { m with cache := m.cache.fresh.2 }
  | allocate (owner bytes) : Edit m (m.allocate owner bytes).2
  | write (a bytes) : Edit m (m.writeBytes a bytes)
  /-- What the host keeps beside stack and heap. -/
  | host (callSite destroyed names journal) : Edit m { m with callSite, destroyed, names, journal }
  | constructed (slot) : Edit m (m.note .constructed slot)

abbrev Edits : Machine → Machine → Prop := Relation.ReflTransGen Edit

variable {m m' : Machine} {v : Value}

theorem Intact.finds (hm : m.Intact) (hv : m.Finds v) : m.heap.Present v := by
  cases hv with
  | plain hv => exact Heap.present_of_ref? hv
  | value i => exact hm.value i
  | cached he => exact hm.cached _ he
  | held hv => exact hm.heap.held hv

theorem Edit.intact (h : Edit m m') (hm : m.Intact) : m'.Intact := by
  cases h with
  | push hv => exact hm.push (hm.finds hv)
  | put p hv => exact hm.putAt p (hm.finds hv)
  | setTop n => exact hm.setTop n
  | pop n => exact hm.pop n
  | integer n => exact hm.pushInt n
  | intern bytes => exact hm.intern bytes
  | remember key hv => exact hm.remember key (hm.finds hv)
  | token => exact { hm with }
  | allocate owner bytes =>
      have hc : m.heap.Change (m.allocate owner bytes).2.heap := .allocate owner bytes
      exact hm.change hc (hm.heap.beside hc fun _ => rfl)
  | write a bytes =>
      have hc : m.heap.Change (m.writeBytes a bytes).heap := .write a bytes
      exact hm.change hc (hm.heap.beside hc fun _ => rfl)
  | host => exact { hm with }
  | constructed slot => exact hm.note _ slot

/-- What was there stays there. -/
theorem Edit.present (h : Edit m m') (hm : m.Intact) (hv : m.heap.Present v) : m'.heap.Present v := by
  cases h with
  | integer n => exact (hm.ofInt n).2.2 hv
  | allocate owner bytes => exact Heap.Change.present (.allocate owner bytes) hm.heap.sound hv
  | write a bytes => exact Heap.Change.present (.write a bytes) hm.heap.sound hv
  | setTop n =>
      obtain ⟨stack, hstack⟩ := setTop_eq m n
      rwa [hstack]
  | constructed slot => rwa [heap_note]
  | push | put | pop | intern | remember | token | host => exact hv

theorem Edit.events (h : Edit m m') : m.events <:+ m'.events := by
  cases h with
  | setTop n =>
      obtain ⟨stack, hstack⟩ := setTop_eq m n
      exact hstack ▸ List.suffix_refl _
  | constructed slot => exact suffix_note _ slot m
  | push | put | pop | integer | intern | remember | token | allocate | write | host =>
      exact List.suffix_refl _

theorem Edits.intact (h : Edits m m') (hm : m.Intact) : m'.Intact := by
  induction h with
  | refl => exact hm
  | tail _ hstep ih => exact hstep.intact ih

theorem Edits.present (h : Edits m m') (hm : m.Intact) (hv : m.heap.Present v) : m'.heap.Present v := by
  induction h with
  | refl => exact hv
  | tail hsteps hstep ih => exact hstep.present (Edits.intact hsteps hm) ih

theorem Edits.events (h : Edits m m') : m.events <:+ m'.events := by
  induction h with
  | refl => exact List.suffix_refl _
  | tail _ hstep ih => exact ih.trans hstep.events

end Machine

open Machine (Carried Edits)

/-- The operations of a machine that run no other code but may fail. -/
inductive Op.Raw : {α : Type} → Op ScriptError α → Prop where
  | insert (i) : Raw (Op.insert i)
  | remove (i) : Raw (Op.remove i)
  | replace (i) : Raw (Op.replace i)
  | rawGet (i) : Raw (Op.rawGet i)
  | rawSet (i) : Raw (Op.rawSet i)
  | rawGetInt (i n) : Raw (Op.rawGetInt i n)
  | rawSetInt (i n) : Raw (Op.rawSetInt i n)
  | rawGetField (i name) : Raw (Op.rawGetField i name)
  | rawSetField (i name) : Raw (Op.rawSetField i name)
  | next (i) : Raw (Op.next i)
  | setMetatable (i) : Raw (Op.setMetatable i)
  | setUserValue (i) : Raw (Op.setUserValue i)

theorem Op.Raw.clean {α : Type} {x : Op ScriptError α} (h : x.Raw) : x.Clean := by
  cases h with
  | insert i => exact insert_clean i
  | remove i => exact remove_clean i
  | replace i => exact replace_clean i
  | rawGet i => exact rawGet_clean i
  | rawSet i => exact rawSet_clean i
  | rawGetInt i n => exact rawGetInt_clean i n
  | rawSetInt i n => exact rawSetInt_clean i n
  | rawGetField i name => exact rawGetField_clean i name
  | rawSetField i name => exact rawSetField_clean i name
  | next i => exact next_clean i
  | setMetatable i => exact setMetatable_clean i
  | setUserValue i => exact setUserValue_clean i

/-- An operation only takes values off the stack, or fails. -/
def Op.Tidies {ε : Type} [Raises ε] (x : Op ε Unit) : Prop :=
  ∀ m, (∃ s : Array Value, (∀ v ∈ s, v ∈ m.stack ∨ v = .nil) ∧ x m = .ok () { m with stack := s }) ∨
    ∃ e, raised? e = none ∧ x m = .error e m

/-- Whatever error is on its way, it goes on after that. -/
theorem Op.Tidies.careful {ε : Type} [Raises ε] {x : Op ε Unit} (h : x.Tidies) (e : ε) :
    x.Careful (Carried e) (fun _ => Carried e) Carried := by
  intro m hm
  rcases h m with ⟨s, hs, hrun⟩ | ⟨e', he', hrun⟩ <;> rw [hrun]
  · exact hm.step (List.suffix_refl _) fun hintact he _ => ⟨hintact.cut hs, he⟩
  · exact hm.imp fun _ _ => Machine.carried_of_text he'

namespace Act

/-- Code that is composed of the operations of a machine. -/
inductive Composed : {ε : Type} → [Raises ε] → {α : Type} → Act ε α → Prop where
  | pure {ε α} [Raises ε] (a) : Composed (Pure.pure a : Act ε α)
  | bind {ε α β} [Raises ε] {x : Act ε α} {f : α → Act ε β} :
      Composed x → (∀ a, Composed (f a)) → Composed (x >>= f)
  | get {ε} [Raises ε] : Composed (MonadState.get : Act ε Machine)
  | edit {ε α} [Raises ε] {g : Machine → α × Machine} :
      (∀ m, Edits m (g m).2) → Composed (modifyGet g : Act ε α)
  | raw {α} {x : Op ScriptError α} : x.Raw → Composed (liftM x : Act ScriptError α)
  /-- Fails, and may raise a value that it finds. -/
  | raise {ε α} [Raises ε] {g : Machine → ε × Machine} :
      (∀ m, Edits m (g m).2 ∧ ∀ v, raised? (g m).1 = some v → m.Finds v) →
      Composed (modifyGet g >>= throw : Act ε α)
  | attempt {ε ε' α} [Raises ε] [Raises ε'] {x : Act ε α} :
      Composed x → Composed (attempt x : Act ε' (Except ε α))
  /-- Takes values off the stack before it passes an error on. -/
  | recover {ε α β} [Raises ε] {x : Act ε α} {k : Except ε α → Act ε β} : Composed x →
      (∀ a, Composed (k (.ok a))) →
      (∀ e, ∃ tidy : Op ε Unit, tidy.Tidies ∧
        k (.error e) = (liftM tidy >>= fun _ => throw e)) →
      Composed (Act.attempt x >>= k)
  | mapError {ε ε' α} [Raises ε] [Raises ε'] {g : ε → ε'} {x : Act ε α} : Composed x →
      (∀ e v, raised? (g e) = some v → raised? e = some v) → Composed (mapError g x)
  | call (count wanted) : Composed (call count wanted)
  | protectedCall (count wanted handler) : Composed (protectedCall count wanted handler)
  | getTable (i) : Composed (getTable i)
  | setTable (i) : Composed (setTable i)
  | cacheGet {ε} [Raises ε] (key) : Composed (cacheGet key : Act ε Bool)
  | pushFunction {ε} [Raises ε] (behaviour upvalues origin) :
      Composed (pushFunction behaviour upvalues origin : Act ε Unit)
  | newTable {ε} [Raises ε] : Composed (newTable : Act ε Unit)
  | newUserdata {ε} [Raises ε] (size) : Composed (newUserdata size : Act ε Address)
  | collect {ε} [Raises ε] : Composed (collect : Act ε Nat)
  | close {ε} [Raises ε] : Composed (close : Act ε Unit)

variable {ε ε' α : Type} [Raises ε] [Raises ε']

theorem Composed.clean {x : Act ε α} (h : x.Composed) : x.Clean := by
  induction h with
  | pure a => exact .pure a fun _ _ _ => trivial
  | bind _ _ ihx ihf => exact .bind ihx ihf
  | get => exact fun _ _ _ => ⟨fun _ _ => rfl, fun m hm => hm⟩
  | edit hg => exact .modifyGet_log (fun m => (hg m).events) fun m hm _ => ⟨(hg m).intact hm, trivial⟩
  | raw hx => exact .lift hx.clean
  | raise hg =>
      refine .bind (Q := Carried) (.modifyGet_log (fun m => (hg m).1.events) fun m hm _ => ?_)
        fun e => .throw e fun _ _ he => he
      obtain ⟨hedits, hfinds⟩ := hg m
      exact ⟨hedits.intact hm, Machine.carried_of_present fun v hv =>
        hedits.present hm (hm.finds (hfinds v hv))⟩
  | attempt _ ih => exact .attempt (R := fun _ _ => True) (ih.post (fun _ _ _ => id) fun _ _ _ _ => trivial)
  | recover _ _ hk ih ihk =>
      refine .bind (.attempt (R := fun r m => ∀ e, r = .error e → Carried e m)
        (ih.post (fun _ _ _ _ _ => nofun) ?_)) fun result => ?_
      · rintro e m - he _ ⟨⟩
        exact he
      · cases result with
        | ok a => exact (ihk a).pre fun _ _ _ => trivial
        | error e =>
            obtain ⟨tidy, htidy, heq⟩ := hk e
            rw [heq]
            exact .bind (.lift ((htidy.careful e).pre fun _ _ he => he e rfl)) fun _ =>
              .throw e fun _ _ he => he
  | mapError _ hg ih => exact .mapError (ih.post (fun _ _ _ => id) fun e m _ he v hv => he v (hg e v hv))
  | call count wanted => exact call_clean count wanted
  | protectedCall count wanted handler => exact protectedCall_clean count wanted handler
  | getTable i => exact getTable_clean i
  | setTable i => exact setTable_clean i
  | cacheGet key => exact cacheGet_careful key
  | pushFunction => exact pushFunction_careful _ _ _
  | newTable => exact newTable_careful
  | newUserdata size => exact newUserdata_careful size
  | collect => exact collect_careful
  | close => exact close_careful

end Act

/-! ## The other operations -/

namespace Machine

variable {m : Machine} {v : Value}

theorem edits_pushBytes (m : Machine) (bytes : Bytes) : Edits m (m.pushBytes bytes) :=
  .tail (.single (.intern bytes)) (.push (.plain rfl))

theorem edits_stringAt (m : Machine) (i : StackIndex) : Edits m (m.stringAt i).2 := by
  unfold stringAt
  split
  · exact .refl
  · split
    · exact .refl
    · dsimp only
      split
      · exact .tail (.single (.intern _)) (.put _ (.plain rfl))
      · exact .single (.intern _)

theorem finds_entry (m : Machine) (slot : Nat) (key : Key) : m.Finds ((m.heap.table slot).get key) := by
  cases hnil : ((m.heap.table slot).get key).isNil with
  | true => exact Value.eq_nil hnil ▸ .plain rfl
  | false => exact .held (Heap.holds_get hnil)

theorem edits_getMetatable (m : Machine) (i : StackIndex) : Edits m (m.getMetatable i).2 := by
  unfold getMetatable
  split
  · rename_i mt hmt
    obtain ⟨r, hr⟩ := holds_metatable hmt
    exact .single (.push (.held hr))
  · exact .refl

theorem edits_getMetafield (m : Machine) (i : StackIndex) (name : String) :
    Edits m (m.getMetafield i name).2 := by
  unfold getMetafield
  split
  · exact .refl
  · rename_i id hid
    dsimp only
    split
    · exact .refl
    · refine .single (.push ?_)
      unfold metaEntry
      split
      · exact m.finds_entry _ _
      · exact .plain rfl

theorem edits_getUserValue (m : Machine) (i : StackIndex) : Edits m (m.getUserValue i).2 := by
  refine .single (.push ?_)
  split
  · rename_i slot hslot
    cases hu : m.heap.userdata? slot with
    | none => exact .plain rfl
    | some u => exact .held (.userValue hu)
  · exact .plain rfl

end Machine

namespace Act

variable {ε α : Type} [Raises ε]

theorem Composed.modify {g : Machine → Machine} (hg : ∀ m, Edits m (g m)) :
    Composed (modify g : Act ε PUnit) := .edit hg

/-- Fails with a text. -/
theorem Composed.throw {e : ε} (he : raised? e = none) : Composed (throw e : Act ε α) :=
  .raise (g := fun m => (e, m)) fun m => ⟨.refl, fun v hv => by rw [he] at hv; cases hv⟩

theorem pushText_composed (text : String) : Composed (modify (·.pushText text) : Act ε PUnit) :=
  .modify fun m => m.edits_pushBytes _

theorem pushLight_composed (a : Address) : Composed (liftM (Op.pushLight a) : Act ScriptError Unit) := by
  unfold Op.pushLight
  cases hv : Value.light? a with
  | none => exact .throw rfl
  | some v =>
      obtain rfl : .light a = v := by
        unfold Value.light? at hv
        split at hv
        · exact Option.some.inj hv
        · cases hv
      exact .modify fun m => .single (.push (.plain rfl))

theorem getField_composed (i : StackIndex) (name : String) : (getField i name).Composed :=
  .bind .get fun _ => .bind (pushText_composed name) fun _ => .getTable _

theorem setField_composed (i : StackIndex) (name : String) : (setField i name).Composed :=
  .bind .get fun _ => .bind (pushText_composed name) fun _ => .bind (.raw (.insert _)) fun _ => .setTable _

theorem newMetatable_composed (name : String) : (newMetatable name).Composed := by
  refine .bind (.raw (.rawGetField _ _)) fun kind => ?_
  split
  · exact .pure _
  · exact .bind (.modify fun _ => .single (.pop 1)) fun _ => .bind .newTable fun _ =>
      .bind (pushText_composed name) fun _ => .bind (.raw (.rawSetField _ _)) fun _ =>
      .bind (.modify fun _ => .single (.push (.value _))) fun _ =>
      .bind (.raw (.rawSetField _ _)) fun _ => .pure _

theorem raiseTop_composed : (RaiseStep.run .top).Composed :=
  .raise (g := fun m => (ScriptError.ofValue m.topValue m.strings, m.pop 1)) fun _ =>
    ⟨.single (.pop 1), fun _ hv => Machine.raised_of_ofValue hv ▸ .value .top⟩

/-- Pushes the value of an error that is no object. -/
theorem pushError_composed {e : ScriptError} (he : ∀ v, raised? e = some v → v.ref? = none) :
    (RaiseStep.run (.value e)).Composed := by
  refine .bind (x := (modify fun m => (m.errorValue e).2.push (m.errorValue e).1 : Act ScriptError Unit))
    (.modify fun m => ?_) fun _ => .pure _
  cases e with
  | value v => exact .single (.push (.plain (he v rfl)))
  | runtime | stackOverflow | errorInHandler => exact .tail (.single (.intern _)) (.push (.plain rfl))

theorem cacheSet_composed (key : CacheKey NativeCode) : Composed (cacheSet key : Act ε Unit) :=
  .modify fun _ => .single (.remember key (.value _))

end Act

end ScriptHost
