import Mathlib.Data.List.Perm.Basic
import Mathlib.Data.List.Nodup
import Mathlib.Tactic.Common
import ScriptHost.Counted.Handles

/-! # Who owns what

Each reference to a counted object has an owner: a handle, or whoever leaked a handle or retained the
object by hand. What an operation does to the references is an exchange: it may take a new reference to
an object that is alive, it may give one up, and it may pass one from owner to owner. So counts and
owners agree as long as nobody gives up what he does not own, and an object goes with its last owner.
-/

namespace ScriptHost

namespace CountedStore

variable {s : CountedStore} {id i : Nat} {c : Counted} {live : List (Nat × Counted)} {taken given : Option Nat}
  {refs refs' : List Nat}

/-! ## Looking up objects -/

theorem get?_cons : get? { live := (i, c) :: live } id = if id = i then some c else get? { live } id := by
  rw [get?, List.lookup_cons]
  by_cases h : id = i
  · rw [if_pos h, h, beq_self_eq_true]
  · rw [if_neg h, beq_false_of_ne h]
    rfl

theorem get?_insert (value : Int) :
    (s.insert i value).get? id = if id = i then some { value } else s.get? id := get?_cons

theorem get?_modify (f : Counted → Counted) :
    (s.modify i f).get? id = if id = i then (s.get? id).map f else s.get? id := by
  obtain ⟨live⟩ := s
  unfold modify
  induction live with
  | nil => exact (ite_self _).symm
  | cons entry live ih =>
      obtain ⟨j, c⟩ := entry
      by_cases hj : j = i
      · simp only [List.map_cons, if_pos hj, get?_cons, ih]
        by_cases hid : id = j
        · simp [hid, hj]
        · simp [hid]
      · simp only [List.map_cons, if_neg hj, get?_cons, ih]
        by_cases hid : id = j
        · simp [hid, hj]
        · simp [hid]

theorem get?_filter : get? { live := s.live.filter (·.1 ≠ i) } id = if id = i then none else s.get? id := by
  obtain ⟨live⟩ := s
  induction live with
  | nil => exact (ite_self _).symm
  | cons entry live ih =>
      obtain ⟨j, c⟩ := entry
      by_cases hj : j = i
      · rw [List.filter_cons_of_neg (by simp [hj]), ih, get?_cons, hj]
        by_cases hid : id = i
        · rw [if_pos hid, if_pos hid]
        · rw [if_neg hid, if_neg hid, if_neg hid]
      · rw [List.filter_cons_of_pos (by simp [hj]), get?_cons, get?_cons, ih]
        by_cases hid : id = j
        · rw [if_pos hid, if_pos hid, if_neg (hid ▸ hj)]
        · rw [if_neg hid, if_neg hid]

/-- Taking a new reference, or none. -/
def take (s : CountedStore) : Option Nat → CountedStore
  | none => s
  | some id => s.retain id

/-- Giving up a reference, or none. -/
def give (s : CountedStore) : Option Nat → Option Int × CountedStore
  | none => (none, s)
  | some id => s.release id

theorem get?_take : (s.take taken).get? id =
    (s.get? id).map fun c => { c with count := c.count + taken.toList.count id } := by
  cases taken with
  | none => exact Option.map_id'.symm
  | some i =>
      rw [take, retain, get?_modify]
      by_cases h : id = i
      · rw [if_pos h, h, Option.toList_some, List.count_singleton_self]
        rfl
      · rw [if_neg h, Option.toList_some, List.count_singleton, beq_false_of_ne (Ne.symm h)]
        exact Option.map_id'.symm

/-- The last reference takes the object with it. -/
theorem get?_release_self : (s.release i).2.get? i =
    (s.get? i).bind fun c => if c.count ≤ 1 then none else some c.released := by
  rw [release]
  cases hi : s.get? i with
  | none => exact hi
  | some c =>
      simp only [Counted.decrement, Nat.sub_eq_zero_iff_le, Option.bind_some]
      split
      · rw [get?_filter, if_pos rfl]
      · rw [get?_modify, if_pos rfl, hi]
        rfl

theorem get?_release_of_ne (h : id ≠ i) : (s.release i).2.get? id = s.get? id := by
  rw [release]
  cases s.get? i with
  | none => rfl
  | some c =>
      dsimp only
      split
      · rw [get?_filter, if_neg h]
      · rw [get?_modify, if_neg h]

theorem get?_give : (s.give given).2.get? id = (s.get? id).bind fun c =>
    if given = some id ∧ c.count ≤ 1 then none
    else some { c with count := c.count - given.toList.count id } := by
  have hother (h : given ≠ some id) (c : Counted) : (if given = some id ∧ c.count ≤ 1 then none
      else some { c with count := c.count - given.toList.count id }) = some c := by
    rw [if_neg fun hc => h hc.1, List.count_eq_zero.mpr (by simpa using h), Nat.sub_zero]
  by_cases h : given = some id
  · subst h
    rw [give, get?_release_self]
    simp only [true_and, Option.toList_some, List.count_singleton_self]
    rfl
  · simp only [hother h, Option.bind_fun_some]
    cases given with
    | none => rfl
    | some i => exact get?_release_of_ne fun hid => h (hid ▸ rfl)

theorem give_fst : (s.give given).1 =
    given.bind fun id => (s.get? id).bind fun c => if c.count ≤ 1 then some c.value else none := by
  cases given with
  | none => rfl
  | some id =>
      rw [give, release, Option.bind_some]
      cases s.get? id with
      | none => rfl
      | some c =>
          simp only [Counted.decrement, Nat.sub_eq_zero_iff_le, Option.bind_some]
          split <;> rfl

/-! ## Counts and references -/

def Alive (s : CountedStore) (id : Nat) : Prop := s.get? id ≠ none

instance : Decidable (s.Alive id) := inferInstanceAs (Decidable (s.get? id ≠ none))

def count (s : CountedStore) (id : Nat) : Nat := ((s.get? id).map Counted.count).getD 0

theorem count_of_not_alive (h : ¬ s.Alive id) : s.count id = 0 := by
  rw [count, not_not.mp h]
  rfl

/-- There are as many references to each object as it counts, and none to what is no object. -/
def Owned (s : CountedStore) (refs : List Nat) : Prop := ∀ id, s.count id = refs.count id

theorem Owned.alive (h : s.Owned refs) (hid : id ∈ refs) : s.Alive id := by
  by_contra hdead
  exact List.count_eq_zero.mp ((h id).symm.trans (count_of_not_alive hdead)) hid

theorem Owned.count_eq (h : s.Owned refs) (hid : s.get? id = some c) : c.count = refs.count id := by
  rw [← h id, count, hid]
  rfl

/-- Taking a new reference and giving up one that was there before. -/
structure Exchange (s : CountedStore) (refs : List Nat) (taken given : Option Nat) (refs' : List Nat) :
    Prop where
  alive : ∀ id ∈ taken, s.Alive id
  owned : ∀ id ∈ given, id ∈ refs
  references : (taken.toList ++ refs).Perm (given.toList ++ refs')

theorem count_toList_le (taken : Option Nat) (id : Nat) : taken.toList.count id ≤ 1 := by
  cases taken with
  | none => exact Nat.zero_le 1
  | some i => exact List.count_le_length

namespace Exchange

theorem count_eq (h : s.Exchange refs taken given refs') (id : Nat) :
    taken.toList.count id + refs.count id = given.toList.count id + refs'.count id := by
  rw [← List.count_append, ← List.count_append, h.references.count_eq]

theorem get?_eq (h : s.Exchange refs taken given refs') (howned : s.Owned refs) (id : Nat) :
    ((s.take taken).give given).2.get? id = (s.get? id).bind fun c =>
      if 0 < refs.count id ∧ refs'.count id = 0 then none else some { c with count := refs'.count id } := by
  rw [get?_give, get?_take]
  cases hid : s.get? id with
  | none => rfl
  | some c =>
      have hcount := howned.count_eq hid
      have hrefs := h.count_eq id
      simp only [Option.map_some, Option.bind_some, hcount]
      by_cases hown : given = some id
      · have hone : given.toList.count id = 1 := by rw [hown]; exact List.count_singleton_self
        have hpos : 0 < refs.count id := List.count_pos_iff.mpr (h.owned id hown)
        by_cases hlast : refs'.count id = 0
        · rw [if_pos ⟨hown, by omega⟩, if_pos ⟨hpos, hlast⟩]
        · rw [if_neg (by omega), if_neg (by omega), Nat.add_comm, hrefs, Nat.add_sub_cancel_left]
      · have hzero : given.toList.count id = 0 := List.count_eq_zero.mpr (by simpa using hown)
        rw [if_neg (fun hc => hown hc.1), if_neg (by omega), Nat.add_comm, hrefs, Nat.add_sub_cancel_left]

theorem owned_after (h : s.Exchange refs taken given refs') (howned : s.Owned refs) :
    ((s.take taken).give given).2.Owned refs' := by
  intro id
  rw [count, h.get?_eq howned]
  cases hid : s.get? id with
  | none =>
      have hrefs : refs.count id = 0 := by rw [← howned id, count, hid]; rfl
      have htaken : taken.toList.count id = 0 :=
        List.count_eq_zero.mpr fun ht => h.alive id (by simpa using ht) hid
      have := h.count_eq id
      simp only [Option.bind_none, Option.map_none, Option.getD_none]
      omega
  | some c =>
      simp only [Option.bind_some]
      split
      · rename_i hlast
        exact hlast.2.symm
      · rfl

theorem destroyed_iff (h : s.Exchange refs taken given refs') (howned : s.Owned refs) :
    s.Alive id ∧ ¬ ((s.take taken).give given).2.Alive id ↔ 0 < refs.count id ∧ refs'.count id = 0 := by
  rw [Alive, Alive, h.get?_eq howned]
  cases hid : s.get? id with
  | none =>
      have hdead : s.count id = 0 := count_of_not_alive (not_not.mpr hid)
      simp [← howned id, hdead]
  | some c => simp [Option.bind_some, ite_eq_left_iff]

theorem alive_before (h : s.Exchange refs taken given refs') (howned : s.Owned refs)
    (hid : ((s.take taken).give given).2.Alive id) : s.Alive id := by
  intro hnone
  refine hid ?_
  rw [h.get?_eq howned, hnone, Option.bind_none]

/-- Nothing but what is given up is destroyed. -/
theorem given_of_destroyed (h : s.Exchange refs taken given refs') (hpos : 0 < refs.count id)
    (hlast : refs'.count id = 0) : given = some id := by
  have hrefs := h.count_eq id
  have hmem : id ∈ given.toList := List.count_pos_iff.mp (by omega)
  simpa using hmem

theorem value_iff (h : s.Exchange refs taken given refs') (howned : s.Owned refs) {x : Int} :
    ((s.take taken).give given).1 = some x ↔ ∃ id c, s.get? id = some c ∧ c.value = x ∧
      ¬ ((s.take taken).give given).2.Alive id := by
  have hdestroyed {id : Nat} {c : Counted} (hid : s.get? id = some c) :
      ¬ ((s.take taken).give given).2.Alive id ↔ 0 < refs.count id ∧ refs'.count id = 0 := by
    rw [← h.destroyed_iff howned]
    exact (and_iff_right fun hnone => Option.some_ne_none c (hid.symm.trans hnone)).symm
  rw [give_fst]
  constructor
  · intro hx
    obtain ⟨id, rfl, hx⟩ := Option.bind_eq_some_iff.mp hx
    obtain ⟨c, hid, hcount, rfl⟩ : ∃ c, s.get? id = some c ∧
        c.count + taken.toList.count id ≤ 1 ∧ c.value = x := by
      rw [Option.bind_some, get?_take] at hx
      simpa [Option.bind_eq_some_iff] using hx
    have hrefs := h.count_eq id
    have hcount := howned.count_eq hid
    have hpos : 0 < refs.count id := List.count_pos_iff.mpr (h.owned id rfl)
    rw [Option.toList_some, List.count_singleton_self] at hrefs
    exact ⟨id, c, hid, rfl, (hdestroyed hid).mpr ⟨hpos, by omega⟩⟩
  · rintro ⟨id, c, hid, rfl, hdead⟩
    obtain ⟨hpos, hlast⟩ := (hdestroyed hid).mp hdead
    have hgiven := h.given_of_destroyed hpos hlast
    have hrefs := h.count_eq id
    have hcount := howned.count_eq hid
    rw [hgiven, Option.toList_some, List.count_singleton_self] at hrefs
    have hle : c.count + taken.toList.count id ≤ 1 := by omega
    rw [hgiven, Option.bind_some, get?_take, hid, Option.map_some, Option.bind_some, if_pos hle]

end Exchange

end CountedStore

/-! ## Handles -/

namespace Handles

variable {h : Handles} {name : String} {id : Nat}

theorem adopt_eq (name : String) (id : Nat) :
    h.adopt name id = ((h.store.give (h.handle? name)).1,
      { h with
        store := (h.store.give (h.handle? name)).2
        held := (name, id) :: (h.leak name).held }) := by
  unfold adopt
  cases h.handle? name <;> rfl

theorem hold_eq (name : String) (id : Nat) :
    h.hold name id = (((h.store.take (some id)).give (h.handle? name)).1,
      { h with
        store := ((h.store.take (some id)).give (h.handle? name)).2
        held := (name, id) :: (h.leak name).held }) := adopt_eq name id

theorem drop_eq (hid : h.handle? name = some id) :
    h.drop name = ((h.store.give (some id)).1,
      { h with store := (h.store.give (some id)).2, held := (h.leak name).held }) := by
  rw [drop, hid]
  rfl

/-- The names of handles. -/
def names (h : Handles) : List String := h.held.map Prod.fst

/-- The objects that handles hold, once for each handle. -/
def targets (h : Handles) : List Nat := h.held.map Prod.snd

theorem names_leak : (h.leak name).names = h.names.filter (· ≠ name) := by
  rw [names, names, leak, List.filter_map]
  rfl

theorem nodup_names_leak (hnames : h.names.Nodup) : (h.leak name).names.Nodup := by
  rw [names_leak]
  exact hnames.filter _

/-- A handle that is leaked was one owner. -/
theorem targets_perm (hnames : h.names.Nodup) (name : String) :
    h.targets.Perm ((h.handle? name).toList ++ (h.leak name).targets) := by
  unfold names at hnames
  unfold targets handle? leak
  dsimp only
  generalize h.held = held at hnames ⊢
  induction held with
  | nil => exact .nil
  | cons entry rest ih =>
      obtain ⟨other, id⟩ := entry
      rw [List.map_cons, List.nodup_cons] at hnames
      rw [List.lookup_cons]
      by_cases hname : name = other
      · subst hname
        have hrest : rest.filter (·.1 ≠ name) = rest := by
          refine List.filter_eq_self.mpr fun e he => decide_eq_true fun hname => hnames.1 ?_
          exact List.mem_map.mpr ⟨e, he, hname⟩
        rw [beq_self_eq_true, List.filter_cons_of_neg (by simp), hrest]
        exact .refl _
      · rw [beq_false_of_ne hname, List.filter_cons_of_pos (by simp [Ne.symm hname])]
        exact ((ih hnames.2).cons id).trans List.perm_middle.symm

theorem mem_targets (hid : h.handle? name = some id) : id ∈ h.targets := by
  obtain ⟨l, l', hheld, -⟩ := List.lookup_eq_some_iff.mp hid
  rw [targets, hheld]
  simp

end Handles

/-! ## Histories -/

/-- Handles together with the references that no handle owns, because a handle was leaked or the object
    was retained by hand. -/
structure Holdings where
  handles : Handles := {}
  loose : List Nat := []

namespace Holdings

/-- All references, each with the object it is one to. -/
def references (s : Holdings) : List Nat := s.handles.targets ++ s.loose

/-- The references to an object that were not given up. -/
def outstanding (s : Holdings) (id : Nat) : Nat := s.references.count id

def object? (s : Holdings) (id : Nat) : Option Counted := s.handles.store.get? id

def Alive (s : Holdings) (id : Nat) : Prop := s.handles.store.Alive id

/-- An object that was there is gone. -/
def Destroyed (s s' : Holdings) (id : Nat) : Prop := s.Alive id ∧ ¬ s'.Alive id

instance {s : Holdings} {id : Nat} : Decidable (s.Alive id) :=
  inferInstanceAs (Decidable (s.handles.store.Alive id))

instance {s s' : Holdings} {id : Nat} : Decidable (s.Destroyed s' id) :=
  inferInstanceAs (Decidable (s.Alive id ∧ ¬ s'.Alive id))

/-- One operation, with the value of the object that it destroys. Objects are retained while they are
    alive, and references are given up or adopted by those who own them. -/
inductive Step : Holdings → Option Int → Holdings → Prop where
  | create {s : Holdings} (name : String) (value : Int) :
      Step s none { s with handles := s.handles.create name value }
  | retain {s : Holdings} (id : Nat) : s.Alive id →
      Step s none { handles := s.handles.retain id, loose := id :: s.loose }
  | release {s : Holdings} (id : Nat) : id ∈ s.loose →
      Step s (s.handles.release id).1 { handles := (s.handles.release id).2, loose := s.loose.erase id }
  | hold {s : Holdings} (name : String) (id : Nat) : s.Alive id →
      Step s (s.handles.hold name id).1 { s with handles := (s.handles.hold name id).2 }
  | clone {s : Holdings} {id : Nat} (name source : String) : s.handles.handle? source = some id →
      Step s (s.handles.hold name id).1 { s with handles := (s.handles.hold name id).2 }
  | adopt {s : Holdings} (name : String) (id : Nat) : id ∈ s.loose →
      Step s (s.handles.adopt name id).1
        { handles := (s.handles.adopt name id).2, loose := s.loose.erase id }
  | leak {s : Holdings} {id : Nat} (name : String) : s.handles.handle? name = some id →
      Step s none { handles := s.handles.leak name, loose := id :: s.loose }
  | drop {s : Holdings} {id : Nat} (name : String) : s.handles.handle? name = some id →
      Step s (s.handles.drop name).1 { s with handles := (s.handles.drop name).2 }

/-- All that was so far, the latest first. -/
inductive Run : List Holdings → Prop where
  | start : Run [{}]
  | step {s s' : Holdings} {v : Option Int} {past : List Holdings} :
      Run (s :: past) → Step s v s' → Run (s' :: s :: past)

/-- How often an object was destroyed. -/
def deaths (id : Nat) : List Holdings → Nat
  | s' :: s :: past => (if s.Destroyed s' id then 1 else 0) + deaths id (s :: past)
  | _ => 0

variable {s s' : Holdings} {v : Option Int} {past : List Holdings} {id : Nat} {name : String}
  {taken given : Option Nat}

/-- The owners of references are all there are, no two handles go by one name, and identities are used
    in order. -/
structure Balanced (s : Holdings) : Prop where
  owned : s.handles.store.Owned s.references
  names : s.handles.names.Nodup
  fresh : ∀ id, s.handles.next ≤ id → ¬ s.Alive id

theorem Balanced.outstanding_eq (h : s.Balanced) {c : Counted} (hid : s.object? id = some c) :
    c.count = s.outstanding id := h.owned.count_eq hid

theorem Balanced.alive (h : s.Balanced) (hid : id ∈ s.references) : s.Alive id := h.owned.alive hid

/-- What a step does to the objects, whatever it does to the handles. -/
structure Effect (s : Holdings) (v : Option Int) (s' : Holdings) : Prop where
  balanced : s'.Balanced
  destroyed : ∀ id, s.Destroyed s' id ↔ 0 < s.outstanding id ∧ s'.outstanding id = 0
  value : ∀ x, v = some x ↔ ∃ id c, s.object? id = some c ∧ c.value = x ∧ ¬ s'.Alive id
  gained : ∀ id, s.outstanding id < s'.outstanding id → s.Alive id
  outstanding_le : ∀ id, s'.outstanding id ≤ s.outstanding id + 1
  next_le : s.handles.next ≤ s'.handles.next
  born : ∀ id, s'.Alive id → s.Alive id ∨ s.handles.next ≤ id

/-- Operations that exchange references. -/
structure Exchanged (s : Holdings) (taken given : Option Nat) (v : Option Int) (s' : Holdings) : Prop where
  references : s.handles.store.Exchange s.references taken given s'.references
  store : (v, s'.handles.store) = (s.handles.store.take taken).give given
  next : s'.handles.next = s.handles.next
  names : s'.handles.names.Nodup

theorem Balanced.exchange (h : s.Balanced) (taken given : Option Nat) (hs : s.Exchanged taken given v s') :
    s.Effect v s' := by
  obtain ⟨hrefs, hstore, hnext, hnames⟩ := hs
  obtain ⟨rfl, hstore⟩ := Prod.ext_iff.mp hstore
  have halive (id : Nat) : s'.Alive id ↔ ((s.handles.store.take taken).give given).2.Alive id := by
    rw [Alive, ← hstore]
  have hbefore (id : Nat) (hid : s'.Alive id) : s.Alive id :=
    hrefs.alive_before h.owned ((halive id).mp hid)
  exact
    { balanced :=
        { owned := by
            rw [show s'.handles.store = _ from hstore]
            exact hrefs.owned_after h.owned
          names := hnames
          fresh := fun id hid hlive => h.fresh id (hnext ▸ hid) (hbefore id hlive) }
      destroyed := fun id => by
        rw [Destroyed, halive]
        exact hrefs.destroyed_iff h.owned
      value := fun x => by
        simp only [halive]
        exact hrefs.value_iff h.owned
      gained := fun id hid => by
        have hcount := hrefs.count_eq id
        have hmem : id ∈ taken.toList := List.count_pos_iff.mp (by unfold outstanding at hid; omega)
        exact hrefs.alive id (by simpa using hmem)
      outstanding_le := fun id => by
        have hcount := hrefs.count_eq id
        have htaken := CountedStore.count_toList_le taken id
        unfold outstanding
        omega
      next_le := Nat.le_of_eq hnext.symm
      born := fun id hid => .inl (hbefore id hid) }

theorem Balanced.create (h : s.Balanced) (name : String) (value : Int) :
    s.Effect none { s with handles := s.handles.create name value } := by
  let s' : Holdings := { s with handles := s.handles.create name value }
  have hobject (id : Nat) : s'.handles.store.get? id =
      if id = s.handles.next then some { value } else s.handles.store.get? id := CountedStore.get?_insert value
  have halive (id : Nat) : s'.Alive id ↔ id = s.handles.next ∨ s.Alive id := by
    rw [Alive, Alive, CountedStore.Alive, CountedStore.Alive, hobject]
    split <;> simp [*]
  exact
    { balanced :=
        { owned := fun id => by
            rw [CountedStore.count, show _ = _ from hobject id]
            split
            · rename_i hid
              have hdead := CountedStore.count_of_not_alive (h.fresh id (Nat.le_of_eq hid.symm))
              exact hdead.symm.trans (h.owned id)
            · exact h.owned id
          names := h.names
          fresh := fun id hid => by
            have hid : s.handles.next + 1 ≤ id := hid
            rw [halive, not_or]
            exact ⟨by omega, h.fresh id (by omega)⟩ }
      destroyed := fun id => by
        refine iff_of_false (fun hid => hid.2 ((halive id).mpr (.inr hid.1))) fun hid => ?_
        exact Nat.ne_of_gt hid.1 hid.2
      value := fun x => by
        refine iff_of_false (by simp) ?_
        rintro ⟨id, c, hid, -, hdead⟩
        refine hdead ((halive id).mpr (.inr fun hnone => ?_))
        exact Option.some_ne_none c (hid.symm.trans hnone)
      gained := fun id hid => absurd hid (Nat.lt_irrefl _)
      outstanding_le := fun id => Nat.le_succ _
      next_le := Nat.le_succ _
      born := fun id hid => ((halive id).mp hid).symm.imp_right fun hid => Nat.le_of_eq hid.symm }

/-- A name that is made to stand for a reference gives up the one that it stood for. -/
theorem references_perm (hnames : s.handles.names.Nodup) (name : String) (id : Nat) (loose : List Nat) :
    (id :: (s.handles.targets ++ loose)).Perm ((s.handles.handle? name).toList ++
      (id :: (s.handles.leak name).targets ++ loose)) := by
  have htargets := (s.handles.targets_perm hnames name).append_right loose
  rw [List.append_assoc] at htargets
  exact (htargets.cons id).trans List.perm_middle.symm

theorem nodup_names_replaced (hnames : s.handles.names.Nodup) :
    (name :: (s.handles.leak name).names).Nodup := by
  refine List.nodup_cons.mpr ⟨?_, Handles.nodup_names_leak hnames⟩
  rw [Handles.names_leak]
  simp

theorem mem_references (hid : s.handles.handle? name = some id) : id ∈ s.references :=
  List.mem_append_left _ (Handles.mem_targets hid)

theorem Balanced.hold (h : s.Balanced) (name : String) (hid : s.Alive id) :
    s.Effect (s.handles.hold name id).1 { s with handles := (s.handles.hold name id).2 } := by
  rw [Handles.hold_eq]
  exact h.exchange (some id) (s.handles.handle? name)
    { references :=
        { alive := fun i hi => by cases hi; exact hid
          owned := fun i hi => mem_references hi
          references := references_perm h.names name id s.loose }
      store := rfl
      next := rfl
      names := nodup_names_replaced h.names }

theorem Balanced.step (h : s.Balanced) (hs : Step s v s') : s.Effect v s' := by
  cases hs with
  | create name value => exact h.create name value
  | retain id hid =>
      exact h.exchange (some id) none
        { references :=
            { alive := fun i hi => by cases hi; exact hid
              owned := fun i hi => by cases hi
              references := (@List.perm_middle _ id s.handles.targets s.loose).symm }
          store := rfl
          next := rfl
          names := h.names }
  | release id hid =>
      exact h.exchange none (some id)
        { references :=
            { alive := fun i hi => by cases hi
              owned := fun i hi => by cases hi; exact List.mem_append_right _ hid
              references := ((List.perm_cons_erase hid).append_left _).trans List.perm_middle }
          store := rfl
          next := rfl
          names := h.names }
  | hold name id hid => exact h.hold name hid
  | clone name source hid => exact h.hold name (h.alive (mem_references hid))
  | adopt name id hid =>
      rw [Handles.adopt_eq]
      exact h.exchange none (s.handles.handle? name)
        { references :=
            { alive := fun i hi => by cases hi
              owned := fun i hi => mem_references hi
              references := (((List.perm_cons_erase hid).append_left _).trans List.perm_middle).trans
                (references_perm h.names name id _) }
          store := rfl
          next := rfl
          names := nodup_names_replaced h.names }
  | @leak id name hid =>
      have htargets := (s.handles.targets_perm h.names name).append_right s.loose
      rw [hid] at htargets
      exact h.exchange none none
        { references :=
            { alive := fun i hi => by cases hi
              owned := fun i hi => by cases hi
              references := htargets.trans List.perm_middle.symm }
          store := rfl
          next := rfl
          names := Handles.nodup_names_leak h.names }
  | @drop id name hid =>
      have htargets := (s.handles.targets_perm h.names name).append_right s.loose
      rw [hid] at htargets
      rw [Handles.drop_eq hid]
      exact h.exchange none (some id)
        { references :=
            { alive := fun i hi => by cases hi
              owned := fun i hi => by cases hi; exact mem_references hid
              references := htargets }
          store := rfl
          next := rfl
          names := Handles.nodup_names_leak h.names }

/-! ## The books of a history -/

/-- What holds of everything that was so far. -/
structure Accounted (s : Holdings) (past : List Holdings) : Prop where
  balanced : s.Balanced
  unused : ∀ id, s.outstanding id = 0 → s.Alive id ∨ s.handles.next ≤ id →
    ∀ t ∈ past, t.outstanding id = 0
  deaths_eq : ∀ id, deaths id (s :: past) =
    if s.outstanding id = 0 ∧ ∃ t ∈ past, 0 < t.outstanding id then 1 else 0
  outstanding_le : ∀ id, s.outstanding id ≤ past.length

theorem accounted_start : Accounted {} [] where
  balanced := ⟨fun _ => rfl, List.nodup_nil, fun _ _ => not_not.mpr rfl⟩
  unused := by simp
  deaths_eq := by simp [deaths]
  outstanding_le := fun _ => Nat.le_refl _

theorem Accounted.step (h : s.Accounted past) (hs : Step s v s') : s'.Accounted (s :: past) := by
  have heffect := h.balanced.step hs
  -- What is not destroyed had no reference before that it lost.
  have hkept (id : Nat) (hid : ¬ s.Destroyed s' id) (hzero : s'.outstanding id = 0) :
      s.outstanding id = 0 :=
    Nat.eq_zero_of_not_pos fun hpos => hid ((heffect.destroyed id).mpr ⟨hpos, hzero⟩)
  refine ⟨heffect.balanced, fun id hzero hid t ht => ?_, fun id => ?_, fun id => ?_⟩
  · have hknown : s.Alive id ∨ s.handles.next ≤ id :=
      hid.elim (heffect.born id) fun hnext => .inr (Nat.le_trans heffect.next_le hnext)
    have hspared : ¬ s.Destroyed s' id := fun hdestroyed =>
      hid.elim hdestroyed.2 fun hnext =>
        h.balanced.fresh id (Nat.le_trans heffect.next_le hnext) hdestroyed.1
    have hzero' := hkept id hspared hzero
    rcases List.mem_cons.mp ht with rfl | ht
    · exact hzero'
    · exact h.unused id hzero' hknown t ht
  · rw [deaths, h.deaths_eq]
    by_cases hdestroyed : s.Destroyed s' id
    · obtain ⟨hpos, hzero⟩ := (heffect.destroyed id).mp hdestroyed
      rw [if_pos hdestroyed, if_neg fun hc => Nat.ne_of_gt hpos hc.1,
        if_pos ⟨hzero, s, List.mem_cons_self, hpos⟩]
    · rw [if_neg hdestroyed, Nat.zero_add]
      refine if_congr ⟨?_, ?_⟩ rfl rfl
      · rintro ⟨hzero, t, ht, hpos⟩
        refine ⟨Nat.eq_zero_of_not_pos fun hgained => ?_, t, List.mem_cons_of_mem _ ht, hpos⟩
        have halive := heffect.gained id (hzero ▸ hgained)
        exact Nat.ne_of_gt hpos (h.unused id hzero (.inl halive) t ht)
      · rintro ⟨hzero, t, ht, hpos⟩
        have hzero' := hkept id hdestroyed hzero
        rcases List.mem_cons.mp ht with rfl | ht
        · exact absurd hzero' (Nat.ne_of_gt hpos)
        · exact ⟨hzero', t, ht, hpos⟩
  · exact Nat.le_trans (heffect.outstanding_le id) (Nat.succ_le_succ (h.outstanding_le id))

theorem Run.accounted (h : Run (s :: past)) : s.Accounted past := by
  generalize htrace : s :: past = trace at h
  induction h generalizing s past with
  | start =>
      cases htrace
      exact accounted_start
  | step _ hs ih =>
      cases htrace
      exact (ih rfl).step hs

/-- Every count is the number of references that were not given up, and no object counts more than
    there were operations. A handle leads to an object that is alive. An object that had references and has
    none left was destroyed once, and no other object was ever destroyed. The next operation destroys
    an object exactly if it gives up the last reference to it, and answers with its value. -/
theorem references_conserved (hrun : Run (s :: past)) :
    (∀ id c, s.object? id = some c → c.count = s.outstanding id ∧ c.count ≤ past.length) ∧
    (∀ name id, s.handles.handle? name = some id → s.Alive id) ∧
    (∀ id, deaths id (s :: past) =
      if s.outstanding id = 0 ∧ ∃ t ∈ past, 0 < t.outstanding id then 1 else 0) ∧
    ∀ v s', Step s v s' →
      (∀ id, s.Destroyed s' id ↔ 0 < s.outstanding id ∧ s'.outstanding id = 0) ∧
      ∀ x, v = some x ↔ ∃ id c, s.object? id = some c ∧ c.value = x ∧ ¬ s'.Alive id := by
  have h := hrun.accounted
  refine ⟨fun id c hid => ?_, fun name id hid => ?_, h.deaths_eq, fun v s' hs => ?_⟩
  · have hcount := h.balanced.outstanding_eq hid
    exact ⟨hcount, hcount ▸ h.outstanding_le id⟩
  · exact h.balanced.alive (mem_references hid)
  · exact ⟨(h.balanced.step hs).destroyed, (h.balanced.step hs).value⟩

/-- A handle is cloned, leaked and adopted again, and the object goes with the last of them. -/
theorem references_conserved_lifecycle : ∃ s past, Run (s :: past) ∧ s.outstanding 0 = 0 ∧
    (∃ t ∈ past, t.outstanding 0 = 2) ∧ deaths 0 (s :: past) = 1 := by
  have hcreated := Run.start.step (.create "o" 7)
  have hheld := hcreated.step (.hold "a" 0 (by decide))
  have hcloned := hheld.step (@Step.clone _ 0 "b" "a" (by decide))
  have hleaked := hcloned.step (@Step.leak _ 0 "a" (by decide))
  have hdropped := hleaked.step (@Step.drop _ 0 "b" (by decide))
  have hadopted := hdropped.step (.adopt "c" 0 (by decide))
  have hlast := hadopted.step (@Step.drop _ 0 "c" (by decide))
  refine ⟨_, _, hlast, by decide, ⟨_, .tail _ (.tail _ (.tail _ (.head _))), by decide⟩, ?_⟩
  rw [(references_conserved hlast).2.2.1 0]
  decide

end Holdings

end ScriptHost
