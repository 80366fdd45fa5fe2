import ScriptHost.Proofs.Isolation

/-! # Lawful operations

An operation is lawful when whatever it does to a machine is a run, also when it fails. Lawful
operations compose, and they may call functions of a host whose functions are lawful.
-/

namespace ScriptHost

namespace Machine

variable {m m' m'' : Machine}

/-- A run from a machine whose frame starts on the stack. -/
def Leads (m m' : Machine) : Prop := m.Framed → Runs [] m m'

theorem Leads.refl : Leads m m := fun _ => .refl m

theorem Leads.trans (h : Leads m m') (h' : Leads m' m'') : Leads m m'' :=
  fun hm => (h hm).trans_nil (h' ((h hm).framed hm))

theorem Change.leads (h : Change m m') : Leads m m' := fun _ => .change h

end Machine

open Machine (Leads Runs Framed)

variable {ε ε' α β : Type}

/-- The machine that an operation leaves. -/
def Op.after (x : Op ε α) (m : Machine) : Machine :=
  match x m with
  | .ok _ m' => m'
  | .error _ m' => m'

/-- What an operation does to a machine is a run. -/
def Op.Lawful (x : Op ε α) : Prop := ∀ m, Leads m (x.after m)

/-- What the functions of a host do is a run. -/
def Host.Lawful (host : Host) : Prop := ∀ b, (host.enter b).Lawful

/-- What an operation does for a lawful host is a run. -/
def Act.Lawful (x : Act ε α) : Prop := ∀ host : Host, host.Lawful → Op.Lawful (x host)

namespace Op

variable {x : Op ε α} {f : α → Op ε β} {m m' : Machine} {a : α} {e : ε}

theorem after_ok (h : x m = .ok a m') : x.after m = m' := by
  rw [after, h]

theorem after_error (h : x m = .error e m') : x.after m = m' := by
  rw [after, h]

theorem run_bind : (x >>= f) m =
    match x m with
    | .ok a m => f a m
    | .error e m => .error e m := by
  change EStateM.bind x f m = _
  unfold EStateM.bind
  cases x m <;> rfl

@[simp] theorem run_pure : (pure a : Op ε α) m = .ok a m := rfl

@[simp] theorem run_get : (get : Op ε Machine) m = .ok m m := rfl

@[simp] theorem run_modify {g : Machine → Machine} :
    (modify g : Op ε PUnit) m = .ok ⟨⟩ (g m) := rfl

@[simp] theorem run_modifyGet {g : Machine → α × Machine} :
    (modifyGet g : Op ε α) m = .ok (g m).1 (g m).2 := rfl

@[simp] theorem run_throw : (throw e : Op ε α) m = .error e m := rfl

@[simp] theorem run_fail {f : Fault} :
    (ScriptHost.fail f : Op ScriptError α) m = .error (.ofFault f) m := rfl

theorem bind_ok (h : x m = .ok a m') : (x >>= f) m = f a m' := by
  rw [run_bind, h]

theorem bind_error (h : x m = .error e m') : (x >>= f) m = .error e m' := by
  rw [run_bind, h]

/-- A sequence is followed operation by operation. -/
theorem leads_bind (hx : Leads m (x.after m))
    (hf : ∀ a m', x m = .ok a m' → Leads m' ((f a).after m')) : Leads m ((x >>= f).after m) := by
  cases h : x m with
  | ok a m' =>
      rw [after_ok h] at hx
      have heq : (x >>= f).after m = (f a).after m' := by simp only [after, bind_ok h]
      rw [heq]
      exact hx.trans (hf a m' h)
  | error e m' =>
      rw [after_error h] at hx
      rw [after_error (bind_error h)]
      exact hx

namespace Lawful

theorem pure (a : α) : Lawful (pure a : Op ε α) := fun _ => .refl

theorem get : Lawful (get : Op ε Machine) := fun _ => .refl

theorem throw (e : ε) : Lawful (throw e : Op ε α) := fun _ => .refl

theorem fail (f : Fault) : Lawful (ScriptHost.fail f : Op ScriptError α) := fun _ => .refl

theorem modify {f : Machine → Machine} (hf : ∀ m, Leads m (f m)) :
    Lawful (modify f : Op ε PUnit) := hf

theorem modifyGet {f : Machine → α × Machine} (hf : ∀ m, Leads m (f m).2) :
    Lawful (modifyGet f : Op ε α) := hf

theorem bind (hx : x.Lawful) (hf : ∀ a, (f a).Lawful) : (x >>= f).Lawful :=
  fun m => leads_bind (hx m) fun a m' _ => hf a m'

end Lawful

end Op

namespace Act

/-! ## Running operations -/

section Run

variable {x : Act ε α} {f : α → Act ε β} {host : Host} {m : Machine}

theorem run_bind : (x >>= f) host m =
    match x host m with
    | .ok a m => f a host m
    | .error e m => .error e m := by
  change EStateM.bind (x host) (fun a => f a host) m = _
  unfold EStateM.bind
  cases x host m <;> rfl

theorem bind_ok {a : α} {m' : Machine} (h : x host m = .ok a m') :
    (x >>= f) host m = f a host m' := by
  rw [run_bind, h]

@[simp] theorem run_pure {a : α} : (pure a : Act ε α) host m = .ok a m := rfl

@[simp] theorem run_get : (get : Act ε Machine) host m = .ok m m := rfl

@[simp] theorem run_read : (read : Act ε Host) host m = .ok host m := rfl

@[simp] theorem run_modify {f : Machine → Machine} :
    (modify f : Act ε PUnit) host m = .ok ⟨⟩ (f m) := rfl

@[simp] theorem run_modifyGet {f : Machine → α × Machine} :
    (modifyGet f : Act ε α) host m = .ok (f m).1 (f m).2 := rfl

@[simp] theorem run_throw {e : ε} : (throw e : Act ε α) host m = .error e m := rfl

@[simp] theorem run_lift {x : Op ε α} : (liftM x : Act ε α) host m = x m := rfl

theorem run_attempt : (attempt x : Act ε' (Except ε α)) host m =
    match x host m with
    | .ok a m => .ok (.ok a) m
    | .error e m => .ok (.error e) m := rfl

/-- What an attempt came to may be left aside. -/
theorem run_attempt_modify {g : Machine → Machine} :
    (do let _ ← attempt x; modify g : Act ε' PUnit) host m = .ok ⟨⟩ (g (Op.after (x host) m)) := by
  simp only [run_bind, run_attempt, Op.after]
  cases x host m <;> rfl

theorem run_mapError {f : ε → ε'} : mapError f x host m =
    match x host m with
    | .ok a m => .ok a m
    | .error e m => .error (f e) m := rfl

end Run

theorem after_attempt {x : Act ε α} {host : Host} {m : Machine} :
    Op.after ((attempt x : Act ε' (Except ε α)) host) m = Op.after (x host) m := by
  unfold Op.after attempt
  cases x host m <;> rfl

theorem after_mapError {f : ε → ε'} {x : Act ε α} {host : Host} {m : Machine} :
    Op.after (mapError f x host) m = Op.after (x host) m := by
  unfold Op.after mapError
  cases x host m <;> rfl

/-! ## Following an operation from one machine -/

section From

variable {host : Host} {m m' : Machine}

theorem leads_bind {x : Act ε α} {f : α → Act ε β} (hx : Leads m (Op.after (x host) m))
    (hf : ∀ a m', x host m = .ok a m' → Leads m' (Op.after (f a host) m')) :
    Leads m (Op.after ((x >>= f) host) m) :=
  Op.leads_bind hx hf

theorem leads_get {f : Machine → Act ε β} (hf : Leads m (Op.after (f m host) m)) :
    Leads m (Op.after ((get >>= f) host) m) := hf

theorem leads_modify {g : Machine → Machine} {f : PUnit → Act ε β} (hg : Leads m (g m))
    (hf : Leads (g m) (Op.after (f ⟨⟩ host) (g m))) :
    Leads m (Op.after ((modify g >>= f) host) m) := hg.trans hf

theorem leads_modify_from {start : Machine} {g : Machine → Machine} {f : PUnit → Act ε β}
    (hf : Leads start (Op.after (f ⟨⟩ host) (g m))) :
    Leads start (Op.after ((modify g >>= f) host) m) := hf

/-- An operation and what follows it may take it that the frame starts on the stack of an earlier
    machine, and what follows it that the base did not rise since. -/
theorem leads_bind_from {start : Machine} {x : Act ε α} {f : α → Act ε β} (h : Leads start m)
    (hx : start.Framed → Leads m (Op.after (x host) m))
    (hf : start.Framed → ∀ a m', x host m = .ok a m' → m'.base ≤ start.base →
      Leads m' (Op.after (f a host) m')) :
    Leads start (Op.after ((x >>= f) host) m) := fun hstart =>
  h.trans (leads_bind (hx hstart) fun a m' ha => by
    have hto : Leads start m' := h.trans (Op.after_ok ha ▸ hx hstart)
    exact hf hstart a m' ha ((hto hstart).preserved hstart).base_le) hstart

end From

namespace Lawful

theorem pure (a : α) : Lawful (pure a : Act ε α) := fun _ _ _ => .refl

theorem get : Lawful (get : Act ε Machine) := fun _ _ _ => .refl

theorem throw (e : ε) : Lawful (throw e : Act ε α) := fun _ _ _ => .refl

theorem modify {f : Machine → Machine} (hf : ∀ m, Leads m (f m)) :
    Lawful (modify f : Act ε PUnit) := fun _ _ => hf

theorem modifyGet {f : Machine → α × Machine} (hf : ∀ m, Leads m (f m).2) :
    Lawful (modifyGet f : Act ε α) := fun _ _ => hf

theorem lift {x : Op ε α} (hx : x.Lawful) : Lawful (liftM x : Act ε α) := fun _ _ => hx

theorem bind {x : Act ε α} {f : α → Act ε β} (hx : x.Lawful) (hf : ∀ a, (f a).Lawful) :
    (x >>= f).Lawful := fun host hhost => (hx host hhost).bind fun a => hf a host hhost

theorem attempt {x : Act ε α} (hx : x.Lawful) : (attempt x : Act ε' (Except ε α)).Lawful := by
  intro host hhost m
  rw [after_attempt]
  exact hx host hhost m

theorem mapError {f : ε → ε'} {x : Act ε α} (hx : x.Lawful) : (mapError f x).Lawful := by
  intro host hhost m
  rw [after_mapError]
  exact hx host hhost m

theorem ite {c : Prop} [Decidable c] {x y : Act ε α} (hx : x.Lawful) (hy : y.Lawful) :
    (if c then x else y).Lawful := by
  split
  · exact hx
  · exact hy

theorem ofExcept (r : Except ε α) : (ofExcept r : Act ε α).Lawful := by
  cases r with
  | ok a => exact .pure a
  | error e => exact .throw e

end Lawful

end Act

end ScriptHost
