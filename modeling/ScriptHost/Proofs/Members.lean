import ScriptHost.Proofs.RoundTrip

/-! # Members lie in the block

A peer compares the size of a block once with the extent of its members, and never asks again when a member
is read or written. The extent is that of the members that were taken, each at the first time its name was
offered. A member whose end is past the last address escapes: its end counts as a 64-bit number, so it is
small.
-/

namespace ScriptHost

namespace MemberTable

variable {t : MemberTable} {m : Member} {name : String} {members : List Member} {n : Nat}

/-- A table after a member was offered: one whose name is taken is refused. -/
def offer (t : MemberTable) (m : Member) : MemberTable := (t.insert m).toOption.getD t

/-- The table that takes what it can of some members. -/
def offered (members : List Member) : MemberTable := members.foldl offer {}

theorem insert_eq_error {e : MemberError} (h : t.insert m = .error e) :
    e = .duplicate m.name ∧ (t.get? m.name).isSome := by
  unfold insert at h
  split at h
  · rename_i hsome
    exact ⟨(Except.error.inj h).symm, hsome⟩
  · cases h

theorem offer_of_isSome (h : (t.get? m.name).isSome) : t.offer m = t := by
  rw [offer, insert, if_pos h]
  rfl

theorem offer_of_isNone (h : t.get? m.name = none) :
    t.offer m = { members := t.members ++ [m], extent := max t.extent m.stop } := by
  rw [offer, insert, if_neg (by simp [h])]
  rfl

/-- A name leads to the first member of that name. -/
theorem get?_offer : (t.offer m).get? name = (t.get? name).or ([m].find? (·.name == name)) := by
  cases hget : t.get? m.name with
  | some found =>
      rw [offer_of_isSome (by simp [hget])]
      by_cases hname : m.name = name
      · rw [← hname, hget, Option.some_or]
      · simp [hname]
  | none =>
      rw [offer_of_isNone hget]
      simp only [get?, List.find?_append]

theorem get?_foldl : (members.foldl offer t).get? name =
    (t.get? name).or (members.find? (·.name == name)) := by
  induction members generalizing t with
  | nil => simp
  | cons m rest ih =>
      have hcons : (m :: rest).find? (·.name == name) =
          ([m].find? (·.name == name)).or (rest.find? (·.name == name)) := by
        rw [← List.find?_append]
        rfl
      rw [List.foldl_cons, ih, get?_offer, hcons, Option.or_assoc]

theorem get?_offered : (offered members).get? name = members.find? (·.name == name) := by
  rw [offered, get?_foldl]
  rfl

/-- The extent is the least that no member ends behind. -/
def Tight (t : MemberTable) : Prop :=
  ∀ n, t.extent ≤ n ↔ ∀ name m, t.get? name = some m → m.stop ≤ n

theorem tight_empty : Tight {} := fun n => by simp [get?]

theorem Tight.offer (ht : t.Tight) : (t.offer m).Tight := by
  intro n
  cases hget : t.get? m.name with
  | some found =>
      rw [offer_of_isSome (by simp [hget])]
      exact ht n
  | none =>
      have hextent : (t.offer m).extent = max t.extent m.stop := by rw [offer_of_isNone hget]
      rw [hextent, Nat.max_le, ht n]
      constructor
      · rintro ⟨hold, hnew⟩ name found hfound
        rw [get?_offer] at hfound
        rcases Option.or_eq_some_iff.mp hfound with hfound | ⟨-, hfound⟩
        · exact hold name found hfound
        · obtain rfl := List.mem_singleton.mp (List.mem_of_find?_eq_some hfound)
          exact hnew
      · intro hall
        refine ⟨fun name found hfound => hall name found ?_, hall m.name m ?_⟩
        · rw [get?_offer, hfound, Option.some_or]
        · rw [get?_offer, hget]
          simp

theorem tight_offered : (offered members).Tight := by
  have hfold : ∀ {t : MemberTable}, t.Tight → (members.foldl MemberTable.offer t).Tight := by
    induction members with
    | nil => exact id
    | cons m rest ih => exact fun ht => ih ht.offer
  exact hfold tight_empty

end MemberTable

theorem Member.stop_eq {m : Member} (h : m.offset + m.tag.size < 2 ^ 64) :
    m.stop = m.offset + m.tag.size := Nat.mod_eq_of_lt h

namespace Machine

variable {m : Machine} {p : Peer} {members : List Member} {slot : Nat} {u : Userdata}

/-- A peer that looks for its objects in the blocks of handles accepts a block that no member ends
    behind, by the 64-bit numbers of the ends. -/
theorem objectAddress_inBlock (hp : p.members = .offered members) (hin : p.addressing = .inBlock)
    (hhandle : m.value (.argument 1) = .userdata slot) (hu : m.heap.userdata? slot = some u) :
    (∃ object m', p.objectAddress m = .ok object m') ↔
      ∀ name member, p.members.get? name = some member → member.stop ≤ u.size := by
  have hneeded : p.neededSize = p.members.extent := by rw [Peer.neededSize, hin]
  have hsize : m.blockSize? (.userdata slot) = some u.size := by rw [blockSize?, hu, Option.map_some]
  have htight : p.members.extent ≤ u.size ↔
      ∀ name member, p.members.get? name = some member → member.stop ≤ u.size :=
    hp ▸ MemberTable.tight_offered u.size
  rw [← htight, ← hneeded]
  constructor
  · rintro ⟨object, m', hrun⟩
    obtain ⟨-, block, haccepts⟩ := Peer.accepts_of_objectAddress hrun
    rw [hhandle] at haccepts
    exact haccepts.room _ hsize
  · intro hroom
    refine ⟨u.address, m, Peer.Accepts.objectAddress ⟨?_, ?_, fun _ => rfl, ?_⟩ hhandle⟩
    · rw [address?, hu, Option.map_some]
    · intro size hs
      rw [hsize] at hs
      exact Option.some.inj hs ▸ hroom
    · intro hby
      rw [hin] at hby
      cases hby

/-- A member of four bytes that ends at the last address counts for nothing. -/
example : (MemberTable.offered [⟨"x", 2 ^ 64 - 4, .signedInt⟩]).extent = 0 := by decide

/-- Three members are offered, the second under a name that is taken. -/
def threeMembers : List Member :=
  [⟨"x", 0, .signedInt⟩, ⟨"x", 4, .double⟩, ⟨"y", 6, .signedShort⟩]

end Machine

end ScriptHost
