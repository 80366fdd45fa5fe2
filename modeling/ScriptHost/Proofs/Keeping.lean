import ScriptHost.Proofs.Equipment
import ScriptHost.Proofs.Lawful.Handle

/-! # Operations that keep the class library

An operation keeps a library when it leaves machines that are equipped with it equipped, also when it fails.
Operations that keep a library compose, and may call functions of a host whose functions keep it. This module is
about operations that call no function: none that reads values, pushes them or writes native memory concerns the
tables of a library.
-/

namespace ScriptHost

open Machine

variable {ε ε' α β : Type} {l : Library}

namespace Machine

variable {m : Machine} {v : Value} {n : Nat} {i : StackIndex} {a : Address}

namespace Equipped

theorem stack {s : Array Value} (h : m.Equipped l) : { m with stack := s }.Equipped l :=
  h.of_heap rfl rfl rfl rfl rfl rfl

theorem pushAt (h : m.Equipped l) : (m.pushAt i).Equipped l := h.stack

theorem truncate (h : m.Equipped l) : (m.truncate n).Equipped l := h.stack

theorem pop (h : m.Equipped l) : (m.pop n).Equipped l := h.stack

theorem setTop (h : m.Equipped l) : (m.setTop n).Equipped l := h.passes .setTop

theorem pushBytes {bytes : Bytes} (h : m.Equipped l) : (m.pushBytes bytes).Equipped l := (h.intern bytes).stack

theorem pushText {text : String} (h : m.Equipped l) : (m.pushText text).Equipped l := h.pushBytes

theorem ofInt (h : m.Equipped l) (k : Int) : (m.ofInt k).2.Equipped l := by
  change { m with heap := (m.heap.ofInt k).2 }.Equipped l
  unfold Heap.ofInt
  split
  · exact h
  · exact h.allocates (Heap.allocates_newBoxed h.sound k)

theorem pushInt {k : Int} (h : m.Equipped l) : (m.pushInt k).Equipped l := (h.ofInt k).stack

theorem errorValue (h : m.Equipped l) (e : ScriptError) : (m.errorValue e).2.Equipped l := h.passes .errorValue

theorem stringAt (h : m.Equipped l) : (m.stringAt i).2.Equipped l := by
  unfold Machine.stringAt
  split
  · exact h
  · split
    · exact h
    · dsimp only
      split
      · exact (h.intern _).stack
      · exact h.intern _

/-- Native memory is no matter of the library. -/
theorem memory {memory : Memory} (h : m.Equipped l) (hc : m.heap.Change { m.heap with memory }) :
    { m with heap := { m.heap with memory } }.Equipped l :=
  h.of_eq (hc.sound h.sound) rfl rfl rfl rfl rfl rfl rfl rfl

theorem writeBytes {bytes : Bytes} (h : m.Equipped l) : (m.writeBytes a bytes).Equipped l := h.memory (.write _ _)

theorem allocate {owner : BlockOwner} {bytes : Array UInt8} (h : m.Equipped l) :
    (m.allocate owner bytes).2.Equipped l := h.memory (.allocate _ _)

theorem release (h : m.Equipped l) : (m.release a).Equipped l := by
  have hstored : (m.storeCounted a (m.counted a).released).Equipped l := h.writeBytes
  unfold Machine.release
  dsimp only
  split
  · exact hstored.of_heap rfl rfl rfl rfl rfl rfl
  · exact hstored

theorem recordDrop {t : BoundType} {value : Int} (h : m.Equipped l) : (m.recordDrop t value).Equipped l :=
  h.of_heap rfl rfl rfl rfl rfl rfl

end Equipped

end Machine

/-! ## Operations that call no function -/

/-- An operation leaves machines equipped. -/
def Op.Keeps (l : Library) (x : Op ε α) : Prop := ∀ m : Machine, m.Equipped l → (x.after m).Equipped l

namespace Op

variable {x : Op ε α} {f : α → Op ε β}

namespace Keeps

theorem pure (a : α) : Keeps l (pure a : Op ε α) := fun _ => id

theorem get : Keeps l (get : Op ε Machine) := fun _ => id

theorem fail (f : Fault) : Keeps l (ScriptHost.fail f : Op ScriptError α) := fun _ => id

theorem modify {g : Machine → Machine} (hg : ∀ m, m.Equipped l → (g m).Equipped l) :
    Keeps l (modify g : Op ε PUnit) := hg

theorem modifyGet {g : Machine → α × Machine} (hg : ∀ m, m.Equipped l → (g m).2.Equipped l) :
    Keeps l (modifyGet g : Op ε α) := hg

theorem bind (hx : x.Keeps l) (hf : ∀ a, (f a).Keeps l) : (x >>= f).Keeps l := by
  intro m hm
  cases h : x m with
  | ok a m' =>
      have hrest := hf a m' (after_ok h ▸ hx m hm)
      have heq : (x >>= f).after m = (f a).after m' := by simp only [after, bind_ok h]
      rwa [heq]
  | error e m' =>
      rw [after_error (bind_error h)]
      exact after_error h ▸ hx m hm

end Keeps

/-! ## Reading values -/

theorem pushLight_keeps (a : Address) : (pushLight a).Keeps l := by
  unfold pushLight
  split
  · exact .modify fun _ h => h.push
  · exact .fail _

theorem position_keeps (i : StackIndex) : (position i).Keeps l := by
  refine .bind .get fun m => ?_
  cases m.position? i with
  | some p => exact .pure _
  | none => exact .fail _

theorem remove_keeps (i : StackIndex) : (remove i).Keeps l :=
  .bind (position_keeps i) fun _ => .modify fun _ h => h.stack

theorem tableAt_keeps (i : StackIndex) : (tableAt i).Keeps l := by
  refine .bind .get fun m => ?_
  split
  · exact .pure _
  · exact .fail _

theorem rawGet_keeps (i : StackIndex) : (rawGet i).Keeps l :=
  .bind .get fun _ => .bind (tableAt_keeps _) fun _ => .bind .get fun _ =>
    .bind (.modify fun _ h => h.pop) fun _ => .bind (.modify fun _ h => h.push) fun _ => .pure _

theorem rawGetField_keeps (i : StackIndex) (name : String) : (rawGetField i name).Keeps l :=
  .bind (tableAt_keeps _) fun _ => .bind (.modifyGet fun _ h => h.intern _) fun _ => .bind .get fun _ =>
    .bind (.modify fun _ h => h.push) fun _ => .pure _

theorem getRegistered_keeps (name : String) : (getRegistered name).Keeps l := rawGetField_keeps _ _

theorem failArgument_keeps (n : Nat) (expected : String) : (failArgument n expected : Op ScriptError α).Keeps l :=
  .bind .get fun _ => .fail _

theorem checkInt_keeps (n : Nat) : (checkInt n).Keeps l :=
  .bind .get fun _ => by
    dsimp only
    split
    · exact .pure _
    · split
      · exact .fail _
      · exact failArgument_keeps _ _

theorem checkNumber_keeps (n : Nat) : (checkNumber n).Keeps l :=
  .bind .get fun _ => by
    split
    · exact .pure _
    · exact failArgument_keeps _ _

theorem checkBool_keeps (n : Nat) : (checkBool n).Keeps l :=
  .bind .get fun _ => by
    split
    · exact .pure _
    · exact failArgument_keeps _ _

/-- Taking the string at an index, or failing where there is none, keeps the library. -/
theorem demandString_keeps (i : StackIndex) {missing : Op ScriptError StringId} (hmissing : missing.Keeps l) : (do
      match ← modifyGet (·.stringAt i) with
      | some id => pure id
      | none => missing : Op ScriptError StringId).Keeps l := by
  refine .bind (.modifyGet fun _ h => h.stringAt) fun id => ?_
  cases id with
  | some id => exact .pure _
  | none => exact hmissing

-- As for lawfulness: an argument's own index is never computed with.
theorem checkString_keeps (n : Nat) : (checkString n).Keeps l :=
  demandString_keeps _ (failArgument_keeps _ _)

theorem checkText_keeps (n : Nat) : (checkText n).Keeps l :=
  .bind (checkString_keeps n) fun _ => .bind .get fun _ => .pure _

theorem checkAddress_keeps (n : Nat) : (checkAddress n).Keeps l :=
  .bind .get fun _ => by
    split
    · exact .pure _
    · exact .pure _
    · exact .fail _

/-! ## Native memory -/

theorem blockAt_keeps (i : StackIndex) : (blockAt i).Keeps l := by
  refine .bind .get fun m => ?_
  cases m.address? (m.value i) with
  | some a => exact .pure _
  | none =>
      cases i with
      | fromBottom n => exact failArgument_keeps _ _
      | fromTop | registry | upvalue | environment => exact .fail _

theorem boxTarget_keeps (i : StackIndex) : (boxTarget i).Keeps l :=
  .bind (blockAt_keeps i) fun _ => .bind .get fun _ => .pure _

theorem setBoxTarget_keeps (i : StackIndex) (target : Address) : (setBoxTarget i target).Keeps l :=
  .bind (blockAt_keeps i) fun _ => .modify fun _ h => h.writeBytes

theorem setSharedTarget_keeps (i : StackIndex) (target : Address) (replacing : Bool) :
    (setSharedTarget i target replacing).Keeps l := by
  refine .bind (boxTarget_keeps i) fun old => ?_
  have hset : ∀ {γ : Type} (_ : γ), (setBoxTarget i target).Keeps l := fun _ => setBoxTarget_keeps i target
  have hrelease : ∀ {γ : Type} (_ : γ), (do
      if replacing && old ≠ 0 then modify (·.release old)
      setBoxTarget i target : Op ScriptError Unit).Keeps l := by
    intro γ _
    dsimp only
    split
    · exact .bind (.modify fun _ h => h.release) hset
    · exact hset ()
  dsimp only
  split
  · exact .bind (.modify fun _ h => h.writeBytes) hrelease
  · exact hrelease ()

theorem checkAlignment_keeps (t : BoundType) : (checkAlignment t).Keeps l := by
  unfold checkAlignment
  split
  · exact .fail _
  · exact .pure _

theorem readMember_keeps (object : Address) (member : Member) : (readMember object member).Keeps l := by
  refine .bind .get fun m => ?_
  dsimp only
  split
  · split
    · exact .modify fun _ h => h.push
    · exact .modify fun _ h => h.pushBytes
  · split
    · exact .modify fun _ h => h.pushInt
    · exact .modify fun _ h => h.push
    · exact .fail _

theorem pin_keeps (id : StringId) : (pin id).Keeps l := by
  refine .modifyGet fun m h => ?_
  dsimp only
  unfold Memory.pin
  split
  · exact h
  · exact h.memory (.allocate _ _)

theorem memberBytes_keeps (tag : MemberTag) : (memberBytes tag).Keeps l := by
  cases tag with
  | pointer => exact .bind (checkAddress_keeps _) fun _ => .pure _
  | signedChar | signedShort | signedInt | signedLong | unsignedChar | unsignedShort | unsignedInt
  | unsignedLong => exact .bind (checkInt_keeps _) fun _ => .pure _
  | boolean => exact .bind (checkBool_keeps _) fun _ => .pure _
  | single | double => exact .bind (checkNumber_keeps _) fun _ => .pure _
  | text =>
      refine .bind .get fun _ => ?_
      split
      · exact .pure _
      · exact .bind (checkString_keeps _) fun _ => .bind (pin_keeps _) fun _ => .pure _

theorem writeMember_keeps (object : Address) (member : Member) : (writeMember object member).Keeps l :=
  .bind (memberBytes_keeps _) fun _ => .modify fun _ h => h.writeBytes

end Op

namespace Peer

theorem objectOf_keeps (p : Peer) (block : Address) : (p.objectOf block).Keeps l := by
  rw [objectOf]
  cases p.addressing with
  | inBlock => exact .pure _
  | byPointer =>
      refine .bind .get fun m => ?_
      dsimp only
      split
      · exact .fail _
      · exact .pure _

theorem objectAddress_keeps (p : Peer) : p.objectAddress.Keeps l := by
  refine .bind .get fun m => ?_
  dsimp only
  cases m.address? (m.value (.argument 1)) with
  | none => exact Op.failArgument_keeps _ _
  | some block =>
      dsimp only
      cases m.blockSize? (m.value (.argument 1)) with
      | none => exact p.objectOf_keeps block
      | some size =>
          dsimp only
          split
          · exact .bind (.fail _) fun _ => p.objectOf_keeps block
          · exact p.objectOf_keeps block

theorem keyName_keeps : keyName.Keeps l :=
  .bind .get fun m => by
    split
    · exact .pure _
    · exact .pure _

end Peer

/-! ## Operations that may call functions -/

/-- What the functions of a host do leaves machines equipped. -/
structure Host.Keeps (host : Host) (l : Library) : Prop where
  lawful : host.Lawful
  enter : ∀ (b : Behaviour) {m : Machine}, m.Framed → m.Equipped l → (Op.after (host.enter b) m).Equipped l

namespace Act

/-- What an operation does for a host that keeps a library leaves machines equipped that satisfy `P`. -/
structure KeepsFrom (l : Library) (P : Machine → Prop) (x : Act ε α) : Prop where
  lawful : x.Lawful
  keeps : ∀ {host : Host} {m : Machine}, host.Keeps l → m.Framed → m.Equipped l → P m →
    (Op.after (x host) m).Equipped l

/-- What an operation makes of equipped machines that satisfy `P`, beside leaving them equipped: `Q` of its result
    and the machine, or `E` of the machine if it fails. -/
structure Maintains (l : Library) (P : Machine → Prop) (x : Act ε α) (Q : α → Machine → Prop)
    (E : Machine → Prop) : Prop where
  lawful : x.Lawful
  ends : ∀ {host : Host} {m : Machine}, host.Keeps l → m.Framed → m.Equipped l → P m →
    Ended (fun a m' => m'.Equipped l ∧ Q a m') (fun m' => m'.Equipped l ∧ E m') (x host m)

/-- The same of all machines. -/
abbrev Keeps (l : Library) (x : Act ε α) : Prop := KeepsFrom l (fun _ => True) x

variable {x : Act ε α} {f : α → Act ε β} {P P' : Machine → Prop} {Q : α → Machine → Prop} {E : Machine → Prop}

namespace KeepsFrom

theorem pre (h : KeepsFrom l P x) (hpre : ∀ m, P' m → P m) : KeepsFrom l P' x :=
  ⟨h.lawful, fun hhost hm he hp => h.keeps hhost hm he (hpre _ hp)⟩

/-- What keeps the library on all machines keeps it on some. -/
theorem of_keeps (h : Keeps l x) : KeepsFrom l P x := h.pre fun _ _ => trivial

theorem pure (a : α) : KeepsFrom l P (pure a : Act ε α) := ⟨.pure a, fun _ _ he _ => he⟩

theorem get : KeepsFrom l P (get : Act ε Machine) := ⟨.get, fun _ _ he _ => he⟩

theorem throw (e : ε) : KeepsFrom l P (throw e : Act ε α) := ⟨.throw e, fun _ _ he _ => he⟩

theorem modify {g : Machine → Machine} (hg : ∀ m, Leads m (g m))
    (h : ∀ m : Machine, m.Framed → m.Equipped l → P m → (g m).Equipped l) :
    KeepsFrom l P (modify g : Act ε PUnit) :=
  ⟨.modify hg, fun _ hm he hp => h _ hm he hp⟩

theorem modifyGet {g : Machine → α × Machine} (hg : ∀ m, Leads m (g m).2)
    (h : ∀ m : Machine, m.Framed → m.Equipped l → P m → (g m).2.Equipped l) :
    KeepsFrom l P (modifyGet g : Act ε α) :=
  ⟨.modifyGet hg, fun _ hm he hp => h _ hm he hp⟩

theorem lift {x : Op ε α} (hl : x.Lawful)
    (h : ∀ m : Machine, m.Framed → m.Equipped l → P m → (x.after m).Equipped l) :
    KeepsFrom l P (liftM x : Act ε α) :=
  ⟨.lift hl, fun _ hm he hp => h _ hm he hp⟩

/-- A sequence keeps the library step by step; what the first leaves on the stack is known from its
    specification. -/
theorem bind (hspec : Spec P x Q E) (hx : KeepsFrom l P x) (hf : ∀ a, KeepsFrom l (Q a) (f a)) :
    KeepsFrom l P (x >>= f) := by
  refine ⟨hx.lawful.bind fun a => (hf a).lawful, fun {host m} hhost hm he hp => ?_⟩
  have hfirst := hx.keeps hhost hm he hp
  cases h : x host m with
  | ok a m' =>
      rw [Op.after_ok h] at hfirst
      have hrun := hx.lawful.run_ok hhost.lawful hm h
      have hclosed : m'.closed = m.closed := hfirst.opened.trans he.opened.symm
      have hrest := (hf a).keeps hhost (hrun.framed hm) hfirst (hspec.ok hhost.lawful hm hp h hclosed)
      have heq : Op.after ((x >>= f) host) m = Op.after (f a host) m' := by
        unfold Op.after
        rw [run_bind, h]
      rwa [heq]
  | error e m' =>
      have heq : Op.after ((x >>= f) host) m = m' := by
        unfold Op.after
        rw [run_bind, h]
      rw [heq]
      exact Op.after_error h ▸ hfirst

theorem ite {c : Prop} [Decidable c] {x y : Act ε α} (hx : KeepsFrom l P x) (hy : KeepsFrom l P y) :
    KeepsFrom l P (if c then x else y) := by
  split
  · exact hx
  · exact hy

theorem attempt (hx : KeepsFrom l P x) : KeepsFrom l P (attempt x : Act ε' (Except ε α)) := by
  refine ⟨.attempt hx.lawful, fun hhost hm he hp => ?_⟩
  rw [after_attempt]
  exact hx.keeps hhost hm he hp

theorem mapError {g : ε → ε'} (hx : KeepsFrom l P x) : KeepsFrom l P (mapError g x) := by
  refine ⟨.mapError hx.lawful, fun hhost hm he hp => ?_⟩
  rw [after_mapError]
  exact hx.keeps hhost hm he hp

/-- What follows reading the machine may depend on it. -/
theorem get_bind {f : Machine → Act ε β} (hlawful : (MonadState.get >>= f : Act ε β).Lawful)
    (hf : ∀ m, m.Framed → m.Equipped l → P m → KeepsFrom l (· = m) (f m)) : KeepsFrom l P (MonadState.get >>= f) :=
  ⟨hlawful, fun hhost hm he hp => (hf _ hm he hp).keeps hhost hm he rfl⟩

/-- What keeps the library whatever came before it. -/
theorem then_keeps (hx : KeepsFrom l P x) (hf : ∀ a, KeepsFrom l (fun _ => True) (f a)) : KeepsFrom l P (x >>= f) :=
  .bind (Q := fun _ _ => True) (E := fun _ => True)
    ⟨hx.lawful, fun _ _ _ _ _ => trivial, fun _ _ _ _ _ => trivial⟩ hx hf

theorem exists_pre {ι : Type} [Nonempty ι] {P : ι → Machine → Prop} (h : ∀ i, KeepsFrom l (P i) x) :
    KeepsFrom l (fun m => ∃ i, P i m) x :=
  ⟨(h (Classical.arbitrary ι)).lawful, fun hhost hm he ⟨i, hp⟩ => (h i).keeps hhost hm he hp⟩

end KeepsFrom

namespace Keeps

theorem modify {g : Machine → Machine} (hg : ∀ m, Leads m (g m))
    (h : ∀ m : Machine, m.Equipped l → (g m).Equipped l) : Keeps l (modify g : Act ε PUnit) :=
  KeepsFrom.modify hg fun m _ he _ => h m he

theorem modifyGet {g : Machine → α × Machine} (hg : ∀ m, Leads m (g m).2)
    (h : ∀ m : Machine, m.Equipped l → (g m).2.Equipped l) : Keeps l (modifyGet g : Act ε α) :=
  KeepsFrom.modifyGet hg fun m _ he _ => h m he

theorem lift {x : Op ε α} (hl : x.Lawful) (h : x.Keeps l) : Keeps l (liftM x : Act ε α) :=
  KeepsFrom.lift hl fun m _ he _ => h m he

theorem bind (hx : Keeps l x) (hf : ∀ a, Keeps l (f a)) : Keeps l (x >>= f) :=
  KeepsFrom.then_keeps hx hf

theorem ite {c : Prop} [Decidable c] {x y : Act ε α} (hx : Keeps l x) (hy : Keeps l y) :
    Keeps l (if c then x else y) := KeepsFrom.ite hx hy

end Keeps

namespace Maintains

variable {R : β → Machine → Prop} {Q' : α → Machine → Prop} {E' : Machine → Prop}

/-- What an operation makes of machines, and that it keeps the library. -/
theorem of_spec (hspec : Spec P x Q E) (hx : KeepsFrom l P x) : Maintains l P x Q E := by
  refine ⟨hx.lawful, fun {host m} hhost hm he hp => ?_⟩
  have hkept := hx.keeps hhost hm he hp
  have hended := hspec.ended hhost.lawful hm hp (hkept.opened.trans he.opened.symm)
  unfold Op.after at hkept
  cases h : x host m with
  | ok a m' =>
      rw [h] at hkept hended
      exact ⟨hkept, hended⟩
  | error e m' =>
      rw [h] at hkept hended
      exact ⟨hkept, hended⟩

theorem keeps (h : Maintains l P x Q E) : KeepsFrom l P x := by
  refine ⟨h.lawful, fun {host m} hhost hm he hp => ?_⟩
  have hended := h.ends hhost hm he hp
  unfold Op.after
  cases hrun : x host m with
  | ok a m' =>
      rw [hrun] at hended
      exact hended.1
  | error e m' =>
      rw [hrun] at hended
      exact hended.1

theorem bind (hx : Maintains l P x Q E) (hf : ∀ a, Maintains l (Q a) (f a) R E) :
    Maintains l P (x >>= f) R E := by
  refine ⟨hx.lawful.bind fun a => (hf a).lawful, fun {host m} hhost hm he hp => ?_⟩
  have hfirst := hx.ends hhost hm he hp
  rw [run_bind]
  cases h : x host m with
  | ok a m' =>
      rw [h] at hfirst
      exact (hf a).ends hhost ((hx.lawful.run_ok hhost.lawful hm h).framed hm) hfirst.1 hfirst.2
  | error e m' =>
      rw [h] at hfirst
      exact hfirst

theorem pre (h : Maintains l P x Q E) (hpre : ∀ m, P' m → P m) : Maintains l P' x Q E :=
  ⟨h.lawful, fun hhost hm he hp => h.ends hhost hm he (hpre _ hp)⟩

theorem post (h : Maintains l P x Q E) (hok : ∀ a m, Q a m → Q' a m) (herror : ∀ m, E m → E' m) :
    Maintains l P x Q' E' :=
  ⟨h.lawful, fun hhost hm he hp => (h.ends hhost hm he hp).imp (fun _ _ => .imp_right (hok _ _))
    fun _ => .imp_right (herror _)⟩

theorem pure {a : α} (h : ∀ m, P m → Q a m) : Maintains l P (pure a : Act ε α) Q E :=
  ⟨.pure a, fun _ _ he hp => ⟨he, h _ hp⟩⟩

theorem modify {g : Machine → Machine} {Q : PUnit → Machine → Prop} (hg : ∀ m, Leads m (g m))
    (h : ∀ m : Machine, m.Framed → m.Equipped l → P m → (g m).Equipped l ∧ Q ⟨⟩ (g m)) :
    Maintains l P (modify g : Act ε PUnit) Q E :=
  ⟨.modify hg, fun _ hm he hp => h _ hm he hp⟩

theorem exists_pre {ι : Type} [Nonempty ι] {P : ι → Machine → Prop} (h : ∀ i, Maintains l (P i) x Q E) :
    Maintains l (fun m => ∃ i, P i m) x Q E :=
  ⟨(h (Classical.arbitrary ι)).lawful, fun hhost hm he ⟨i, hp⟩ => (h i).ends hhost hm he hp⟩

/-- The failure of an attempt is a result. -/
theorem attempt (hx : Maintains l P x Q E) : Maintains l P (attempt x : Act ε' (Except ε α)) (Tried Q E) E' := by
  refine ⟨.attempt hx.lawful, fun {host m} hhost hm he hp => ?_⟩
  have hended := hx.ends hhost hm he hp
  rw [run_attempt]
  cases h : x host m with
  | ok a m' =>
      rw [h] at hended
      exact hended
  | error e m' =>
      rw [h] at hended
      exact hended

/-- What follows reading the machine may depend on it. -/
theorem get_bind {f : Machine → Act ε β} (hlawful : (MonadState.get >>= f : Act ε β).Lawful)
    (hf : ∀ m, m.Framed → m.Equipped l → P m → Maintains l (· = m) (f m) R E) :
    Maintains l P (MonadState.get >>= f) R E :=
  ⟨hlawful, fun hhost hm he hp => (hf _ hm he hp).ends hhost hm he rfl⟩

end Maintains

end Act

end ScriptHost
