import ScriptHost.Proofs.Composed
import ScriptHost.Proofs.Propagation

/-! # Freshness

What native code makes of a machine, at any depth of calls and through any collections, keeps only what is
there, so a new table, function or userdata is none of the values that are kept anywhere, and no table
has an entry under it. This holds as long as no message handler loses its protected call.
-/

namespace ScriptHost

/-- A host whose functions have some bodies, with calls nested so deep at most. -/
def Host.running (bodies : Behaviour → Act ScriptError Nat) : Nat → Host
  | 0 => { enter := fun _ => throw .stackOverflow }
  | depth + 1 => { enter := fun b => (bodies b).run (running bodies depth) }

/-- What an operation comes to on a machine depends on what a function of the host does on another one:
    the operation enters the function there. -/
def Act.Calls {ε α : Type} (x : Act ε α) (host : Host) (m : Machine) (b : Behaviour) (entered : Machine) :
    Prop :=
  ∃ host' : Host, (∀ b' m', b' ≠ b ∨ m' ≠ entered → host'.enter b' m' = host.enter b' m') ∧
    x host' m ≠ x host m

/-- The machines that native code comes to see, with calls nested so deep at most below. -/
inductive Machine.Arises (bodies : Behaviour → Act ScriptError Nat) : Nat → Machine → Prop where
  | create {depth} (limits) : Arises bodies depth (create limits)
  /-- Code runs to its end or to an error. -/
  | run {depth m} {ε α : Type} [Raises ε] {x : Act ε α} : x.Composed → Arises bodies depth m →
      Arises bodies depth (Op.after (x (Host.running bodies depth)) m)
  /-- Code calls a function, which starts there. -/
  | enter {depth m b entered} {ε α : Type} [Raises ε] {x : Act ε α} : x.Composed →
      Arises bodies (depth + 1) m → x.Calls (Host.running bodies (depth + 1)) m b entered →
      Arises bodies depth entered

namespace Act

variable {host : Host} {m entered : Machine} {b : Behaviour} {position count : Nat}

/-- A function that returns ends its call. -/
theorem Enters.returns {n : Nat} {last : Machine} (h : Enters position m b entered)
    (hrun : host.enter b entered = .ok n last) (wanted : Int) :
    callAt position wanted host m = .ok () (last.returnResults position wanted n) := by
  obtain ⟨hlimit, hc, hf⟩ := h
  rw [callAt, invoke_eq, if_neg (by simp [hlimit]), hc]
  simp only [hf, hrun]

/-- A call below the limits calls the function that is there. -/
theorem Enters.calls (h : Enters position m b entered) (hp : m.functionBelow? count = some position)
    (host : Host) (wanted : Int) : (call count wanted).Calls host m b entered := by
  classical
  have hcall : ∀ host', call count wanted host' m = callAt position wanted host' m := fun host' => by
    rw [call, run_bind, run_lift, functionBelow_eq, hp]
  let other (answer : EStateM.Result ScriptError Machine Nat) : Host :=
    { enter := fun b' m' => if b' = b ∧ m' = entered then answer else host.enter b' m' }
  have hthere : ∀ answer, (other answer).enter b entered = answer := fun answer => if_pos ⟨rfl, rfl⟩
  have helsewhere : ∀ answer b' m', b' ≠ b ∨ m' ≠ entered →
      (other answer).enter b' m' = host.enter b' m' := fun answer b' m' hne =>
    if_neg fun heq => hne.elim (· heq.1) (· heq.2)
  -- A function that fails makes a difference to one that returns, and the other way round.
  cases hrun : host.enter b entered with
  | ok n last =>
      refine ⟨_, helsewhere (.error .stackOverflow entered), ?_⟩
      rw [hcall, hcall, h.returns hrun, h.fails (hthere _)]
      exact fun heq => by cases heq
  | error e last =>
      refine ⟨_, helsewhere (.ok 0 entered), ?_⟩
      rw [hcall, hcall, h.fails hrun, h.returns (hthere _)]
      exact fun heq => by cases heq

end Act

open Machine (Sure Carried)

namespace Host

variable {bodies : Behaviour → Act ScriptError Nat}

theorem running_clean (hbodies : ∀ b, (bodies b).Composed) (depth : Nat) (b : Behaviour) :
    ((running bodies depth).enter b).Clean := by
  induction depth generalizing b with
  | zero => exact .throw _ fun _ _ _ => Machine.carried_of_text rfl
  | succ depth ih => exact ((hbodies b).clean (running bodies depth) _ ⟨fun _ _ _ => rfl, ih⟩).2

theorem running_careful (hbodies : ∀ b, (bodies b).Composed) (depth : Nat) :
    (running bodies depth).Careful (running bodies depth) :=
  ⟨fun _ _ _ => rfl, running_clean hbodies depth⟩

end Host

namespace Machine

variable {bodies : Behaviour → Act ScriptError Nat} {depth : Nat} {m : Machine}

/-- What native code comes to see keeps only what is there. -/
theorem Arises.sure (hm : m.Arises bodies depth) (hbodies : ∀ b, (bodies b).Composed) :
    m.Sure fun _ => True := by
  induction hm with
  | create limits => exact fun _ => ⟨intact_create limits, trivial⟩
  | @run depth m ε α _ x hx _ ih =>
      have hcareful := (hx.clean _ _ (Host.running_careful hbodies depth)).2
      cases hrun : x (Host.running bodies depth) m with
      | ok a m' => exact Op.after_ok hrun ▸ hcareful.ok ih hrun
      | error e m' => exact Op.after_error hrun ▸ (hcareful.error ih hrun).imp fun _ _ => trivial
  | @enter depth m b entered ε α _ x hx _ hcalls ih =>
      -- A function that is entered on another machine would make no difference.
      by_contra hunsure
      obtain ⟨host', hsame, hdiffers⟩ := hcalls
      refine hdiffers ((hx.clean _ host' ⟨fun b' m' hm' => hsame b' m' (.inr ?_),
        Host.running_clean hbodies _⟩).1 m ih)
      rintro rfl
      exact hunsure hm'

end Machine

/-! ## New objects -/

/-- What makes an object and pushes it. -/
inductive Creation where
  | table
  /-- A function that captures so many values from the top. -/
  | function (behaviour : Behaviour) (upvalues : Nat) (origin : Origin)
  | userdata (size : Nat)

namespace Creation

def kind : Creation → ObjectKind
  | .table => .table
  | .function .. => .function
  | .userdata _ => .userdata

def run {ε : Type} : Creation → Act ε Unit
  | .table => Act.newTable
  | .function behaviour upvalues origin => Act.pushFunction behaviour upvalues origin
  | .userdata size => do
      let _ ← Act.newUserdata size

end Creation

namespace Machine

/-- The object on top is none of the values that a machine keeps elsewhere, and no table has an entry
    under it. -/
structure Fresh (m : Machine) (r : Ref) : Prop where
  top : m.stack.back? = some (.object r)
  there : m.heap.contents? r ≠ none
  stack : ∀ v ∈ m.stack.pop, m.rawEqual v (.object r) = false
  /-- Entries of tables and their keys, metatables, upvalues and user values. -/
  held : ∀ {s v}, m.heap.Holds s v → m.rawEqual v (.object r) = false
  cached : ∀ {key v}, (key, v) ∈ m.cache.entries → m.rawEqual v (.object r) = false
  registry : m.rawEqual (.table m.registry) (.object r) = false
  globals : m.rawEqual (.table m.globals) (.object r) = false
  noEntry : ∀ slot, m.rawGet slot (.object r) = .nil

variable {m : Machine} {r : Ref} {v : Value} {h : Heap Native} {slot : Nat}

theorem toInt?_object (hr : r.kind ≠ .boxed) : h.toInt? (.object r) = none := by
  obtain ⟨kind, slot⟩ := r
  cases kind with
  | table | function | userdata => rfl
  | boxed => exact absurd rfl hr

/-- Values are raw-equal to an object only if they refer to it. -/
theorem rawEqual_object (hr : r.kind ≠ .boxed) (hv : v.ref? ≠ some r) :
    m.rawEqual v (.object r) = false := by
  have hsame : v.same (.object r) = false := by
    cases v with
    | object s => exact beq_eq_false_iff_ne.mpr fun heq => hv (by rw [heq]; rfl)
    | nil | bool | float | int | string | light | foreign => rfl
  unfold rawEqual
  rw [toInt?_object hr]
  cases m.heap.toInt? v <;> exact hsame

/-- A table with an entry under an object holds it. -/
theorem rawGet_object (hr : r.kind ≠ .boxed) (hheld : ¬ m.heap.Holds ⟨.table, slot⟩ (.object r)) :
    m.rawGet slot (.object r) = .nil := by
  have hkey : m.heap.key? (.object r) = some (.object r) := by
    rw [Heap.key?, toInt?_object hr]
    rfl
  rw [rawGet, hkey]
  cases ht : m.heap.tables.get? slot with
  | none => simp [Heap.table, ht, Table.get, Table.entryValue]
  | some t =>
      simp only [Heap.table, ht, Option.getD_some]
      cases hnil : (t.get (.object r)).isNil with
      | true => exact Value.eq_nil hnil
      | false => exact absurd (.objectKey ht (Table.mem_of_entryValue hnil) hnil) hheld

/-- An object that was not there before its creation is fresh after it. -/
theorem Intact.fresh (hm : m.Intact) (hg : m.heap.Gains h r) (hr : r.kind ≠ .boxed) :
    ({ m with heap := h }.push (.object r)).Fresh r := by
  have hother : ∀ {v}, m.heap.Present v → v.ref? ≠ some r := fun hv hr => hv r hr hg.fresh
  exact {
    top := Array.back?_push
    there := hg.there
    stack := fun v hv => rawEqual_object hr (hother (hm.stack v (by
      rwa [Machine.push, Array.pop_push] at hv)))
    held := fun hv => rawEqual_object hr (hother (hg.held hv))
    cached := fun he => rawEqual_object hr (hother (hm.cached _ he))
    registry := rawEqual_object hr (hother hm.registry)
    globals := rawEqual_object hr (hother hm.globals)
    noEntry := fun slot => rawGet_object hr fun hv => hother (hg.held hv) rfl }

end Machine

namespace Act

variable {ε : Type} {host : Host} {m : Machine}

/-- The object of a creation is fresh if the machine on which the creation comes down to it, after a
    collection that was due, keeps only what is there. -/
theorem creation_fresh (c : Creation) (host : Host) (m : Machine) :
    ∃ m₁ m', (collectIfDue : Act ε Unit) host m = .ok () m₁ ∧ (c.run : Act ε Unit) host m = .ok () m' ∧
      m'.events = m₁.events ∧ (m₁.Intact → ∃ slot, m'.Fresh ⟨c.kind, slot⟩) := by
  obtain ⟨m₁, hrun, -⟩ := collectIfDue_cases (ε := ε) host m
  cases c with
  | table => exact ⟨m₁, _, hrun, bind_ok hrun, rfl, fun hm => ⟨_, hm.fresh hm.heap.gains_newTable nofun⟩⟩
  | function behaviour upvalues origin =>
      exact ⟨m₁, _, hrun, bind_ok hrun, rfl, fun hm => ⟨_, (hm.truncate _).fresh
        (hm.heap.gains_newFunction fun v hv => hm.stack v (Machine.mem_extract hv)) nofun⟩⟩
  | userdata size =>
      exact ⟨m₁, { m₁ with heap := (m₁.heap.newUserdata size).2 }.push
        (.userdata (m₁.heap.newUserdata size).1), hrun, (bind_ok (bind_ok hrun)).trans rfl, rfl,
        fun hm => ⟨_, hm.fresh (hm.heap.gains_newUserdata size) nofun⟩⟩

end Act

namespace Machine

variable {bodies : Behaviour → Act ScriptError Nat} {depth : Nat} {m : Machine}

/-- A new table, function or userdata is raw-equal to no value that is kept anywhere, and no table has an
    entry under it, whatever code the functions of the host are composed of, unless a message handler
    lost its protected call. -/
theorem Arises.allocation_fresh (hm : m.Arises bodies depth) (hbodies : ∀ b, (bodies b).Composed) (c : Creation) :
    ∃ m', (c.run : Act ScriptError Unit) (Host.running bodies depth) m = .ok () m' ∧
      (¬ Event.Orphaned m'.events → ∃ slot, m'.Fresh ⟨c.kind, slot⟩) := by
  obtain ⟨m₁, m', hcollect, hrun, hevents, hfresh⟩ :=
    Act.creation_fresh (ε := ScriptError) c (Host.running bodies depth) m
  refine ⟨m', hrun, fun hlater => hfresh ?_⟩
  have hcareful := (Act.collectIfDue_careful (E := Carried (ε := ScriptError)) _ _ (Host.running_careful hbodies depth)).2
  exact (hcareful.ok (hm.sure hbodies) hcollect (hevents ▸ hlater)).1

/-- A table that a function makes in the frame of its call. -/
theorem calling_fresh : ∃ m', (Creation.table.run : Act ScriptError Unit)
    (Host.running (fun _ => pure 0) 0) (calling.enterFrame ⟨0, .host⟩) = .ok () m' ∧
      ∃ slot, m'.Fresh ⟨.table, slot⟩ := by
  have hcalling : calling.Arises (fun _ => pure 0) 1 :=
    .run (.pushFunction (ε := ScriptError) (.code (.program "f")) 0 .host) (.create {})
  have henters : Act.Enters 0 calling (.code (.program "f")) (calling.enterFrame ⟨0, .host⟩) :=
    @Act.Enters.intro 0 calling 0 calling
      { body := { behaviour := .code (.program "f"), origin := .host }, upvalues := #[] } rfl rfl rfl
  have hentered : (calling.enterFrame ⟨0, .host⟩).Arises (fun _ => pure 0) 0 :=
    .enter (.call 0 0) hcalling (henters.calls rfl _ 0)
  obtain ⟨m', hrun, hfresh⟩ := hentered.allocation_fresh (fun _ => .pure 0) .table
  have hm : (Creation.table.run : Act ScriptError Unit) (Host.running (fun _ => pure 0) 0)
      (calling.enterFrame ⟨0, .host⟩) = .ok () _ := rfl
  rw [hm] at hrun
  cases hrun
  exact ⟨_, hm, hfresh fun ⟨_, _, he⟩ => by cases he⟩

end Machine

end ScriptHost
