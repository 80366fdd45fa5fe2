import ScriptHost.Proofs.Propagation

/-! # Raised values

A protected call without a message handler leaves the value that was raised inside, however many
functions passed the error on. Errors carry strings as texts: a string whose bytes are none comes out
with replacement characters.
-/

namespace ScriptHost

namespace StringPool

variable {p p' : StringPool} {v : Value} {id : StringId} {bytes : Bytes}

/-- A value that is raised and made a value again in a pool with more strings. -/
theorem toValue_ofValue (hp : p'.Sound) (hextends : p.Extends p')
    (hv : ∀ id, v = .string id → ∃ text, p.strings[id]? = some (Utf8.encode text)) :
    ((ScriptError.ofValue v p).toValue p').1 = v := by
  cases v with
  | string id =>
      obtain ⟨text, hid⟩ := hv id rfl
      have hget : p.get id = Utf8.encode text := by rw [get, hid, Option.getD_some]
      have hagain : p'.intern (Utf8.encode text) = (id, p') := intern_again hp (hextends id _ hid)
      simp only [ScriptError.ofValue, hget, Utf8.decodeLossy_encode, ScriptError.toValue,
        ScriptError.message, hagain]
  | nil | bool | float | int | light | object | foreign => rfl

theorem toValue_ofValue_string (p' : StringPool) (hid : p.strings[id]? = some bytes) :
    ∃ id', ((ScriptError.ofValue (.string id) p).toValue p').1 = .string id' ∧
      ((ScriptError.ofValue (.string id) p).toValue p').2.strings[id']? =
        some (Utf8.encode (Utf8.decodeLossy bytes)) := by
  have hget : p.get id = bytes := by rw [get, hid, Option.getD_some]
  refine ⟨_, rfl, ?_⟩
  simp only [ScriptError.ofValue, hget, ScriptError.toValue, ScriptError.message]
  exact intern_found

end StringPool

namespace Machine

variable {m m' : Machine} {q : List Nat} {depth position : Nat} {e : ScriptError}

/-- Without a handler nothing is made of errors. -/
theorem Runs.undecorated (h : Runs q (m.pushGuard {}) m') (hm : m.Framed) {g : Guard}
    (hg : m'.guards.head? = some g) : g.decoration = none := by
  cases h.preserved hm with
  | closed hclosed => simp [hclosed.guards] at hg
  | isolated hkept =>
      cases hd : g.decoration with
      | none => rfl
      | some d =>
          obtain ⟨new, htends⟩ := h.tends hm hkept.closed
          rcases htends.inner g d hg hd with ⟨g', hg', hd', -⟩ | ⟨handler, _, _, _, hheeds, -⟩
          · obtain rfl := Option.some.inj hg'
            cases hd'
          · rw [h.heeds hm hkept.closed, heeds_iff] at hheeds
            cases hheeds

open Act

variable {host host' : Host} {start raise : Machine} {n count : Nat}

/-- A protected call without a message handler fails with what a function inside raised, and leaves
    the value of that. -/
theorem protectedCall_raised (hm : m.Reachable) (hhost : host.Lawful) (wanted : Int)
    (hp : m.functionBelow? count = some position)
    (hchain : Chain host e raise (Runs []) n position (m.pushGuard {})) :
    ∃ m' strings, protectedCall count wanted none host m = .error e m' ∧
      raise.strings.Extends strings ∧ strings.Sound ∧
      m'.stack.back? = some (e.toValue strings).1 ∧ m'.strings = (e.toValue strings).2 := by
  have hguarded := hm.pushGuard none
  obtain ⟨hbase, hlt⟩ := functionBelow?_bounds hp
  have hraised := hguarded.moves (hchain.descent hhost hguarded.framed hbase hlt).moves
  -- Whatever the functions do that pass the error on, they keep the strings.
  have hshow : ∀ {m : Machine}, Moves raise m →
      Moves raise (Op.after ((showHandler e : Act ScriptError Unit) host) m) :=
    fun hmoves => hmoves.trans
      (showHandler_lawful _ host hhost _ (hraised.moves hmoves).framed).moves
  obtain ⟨shown, hruns, hmoves, hfail, -⟩ := hchain.fails_protected (P := Moves raise)
    none hm hhost hp wanted (hshow .refl) (fun _ h => h.tail .leave)
    (fun _ _ hrun h => h.trans hrun.moves) fun _ => hshow
  have hfinal := failProtected_plain e m.depth position
    fun g hg => hruns.undecorated hm.framed hg
  obtain ⟨strings, hextends, hsound, htop, hstrings⟩ := failProtected_value shown e m.depth position
  rw [hfinal] at hfail htop hstrings
  exact ⟨_, strings, hfail, (Moves.strings hmoves).trans hextends,
    hsound (hguarded.runs hruns).named.sound, htop, hstrings⟩

theorem raise_top (h : RaiseStep.run .top host start = .error e raise) :
    e = .ofValue start.topValue start.strings ∧ raise.strings = start.strings := by
  cases h
  exact ⟨rfl, rfl⟩

/-- A protected call without a message handler around functions that pass on what one of them raises
    fails with the value that was raised on top. If that is a string, its bytes are those of a text, or
    those of the text that they are read as. -/
theorem Reachable.raised_value (hm : m.Reachable) (hhost : host.Lawful) (wanted : Int)
    (hp : m.functionBelow? count = some position)
    (hchain : Chain host e raise (Runs []) n position (m.pushGuard {}))
    (hraise : RaiseStep.run .top host' start = .error e raise) :
    ∃ m', protectedCall count wanted none host m = .error e m' ∧
      ((∀ id, start.topValue = .string id →
          ∃ text, start.strings.strings[id]? = some (Utf8.encode text)) →
        m'.stack.back? = some start.topValue) ∧
      ∀ id bytes, start.topValue = .string id → start.strings.strings[id]? = some bytes →
        ∃ id', m'.stack.back? = some (.string id') ∧
          m'.strings.strings[id']? = some (Utf8.encode (Utf8.decodeLossy bytes)) := by
  obtain ⟨m', strings, hrun, hextends, hsound, htop, hstrings⟩ :=
    protectedCall_raised hm hhost wanted hp hchain
  obtain ⟨rfl, hsame⟩ := raise_top hraise
  rw [hsame] at hextends
  refine ⟨m', hrun, fun htext => ?_, fun id bytes hid hbytes => ?_⟩
  · rw [htop, StringPool.toValue_ofValue hsound hextends htext]
  · rw [htop, hstrings, hid]
    obtain ⟨id', hvalue, hfound⟩ := StringPool.toValue_ofValue_string strings hbytes
    exact ⟨id', congrArg some hvalue, hfound⟩

/-- The function that is called raises the string of some bytes. -/
def throwingHost (bytes : Bytes) : Host :=
  Programs.host [("f", [.basic (.stack (.literal (.bytes bytes))), .basic (.raise .top)])] 1

def throwing (bytes : Bytes) : Machine :=
  ((calling.pushGuard {}).enterFrame ⟨0, .host⟩).pushBytes bytes

theorem throwing_found (bytes : Bytes) : ∃ id, (throwing bytes).topValue = .string id ∧
    (throwing bytes).strings.strings[id]? = some bytes :=
  ⟨_, rfl, StringPool.intern_found⟩

theorem calling_chain (bytes : Bytes) : ∃ raise e,
    Chain (throwingHost bytes) e raise (Runs []) 1 0 (calling.pushGuard {}) ∧
    RaiseStep.run .top (throwingHost bytes) (throwing bytes) = .error e raise :=
  ⟨_, _, .raise (.intro rfl rfl rfl) rfl, rfl⟩

theorem calling_raised_value : ∃ e m',
    protectedCall 0 0 none (throwingHost (Utf8.encode "x")) calling = .error e m' ∧
    m'.stack.back? = some (throwing (Utf8.encode "x")).topValue := by
  obtain ⟨raise, e, hchain, hraise⟩ := calling_chain (Utf8.encode "x")
  obtain ⟨m', hrun, hkept, -⟩ := calling_reachable.raised_value (Programs.host_lawful 1) 0
    (show calling.functionBelow? 0 = some 0 from rfl) hchain hraise
  refine ⟨e, m', hrun, hkept fun id hid => ⟨"x", ?_⟩⟩
  obtain ⟨id', htop, hfound⟩ := throwing_found (Utf8.encode "x")
  obtain rfl := Value.string.inj (htop.symm.trans hid)
  exact hfound

/-- A byte that is no text comes out as a replacement character. -/
theorem ill_formed_raised_value : ∃ raise e m',
    Chain (throwingHost [255]) e raise (Runs []) 1 0 (calling.pushGuard {}) ∧
    RaiseStep.run .top (throwingHost [255]) (throwing [255]) = .error e raise ∧
    protectedCall 0 0 none (throwingHost [255]) calling = .error e m' ∧
    m'.stack.back? ≠ some (throwing [255]).topValue := by
  obtain ⟨raise, e, hchain, hraise⟩ := calling_chain [255]
  obtain ⟨m', strings, hrun, hextends, -, htop, hstrings⟩ := protectedCall_raised calling_reachable
    (Programs.host_lawful 1) 0 (show calling.functionBelow? 0 = some 0 from rfl) hchain
  refine ⟨raise, e, m', hchain, hraise, hrun, fun hsame => ?_⟩
  obtain ⟨rfl, hstart⟩ := raise_top hraise
  obtain ⟨id, hid, hfound⟩ := throwing_found [255]
  obtain ⟨id', hvalue, htext⟩ := StringPool.toValue_ofValue_string strings hfound
  -- The number of the string cannot also be that of the text it became.
  rw [htop, hid, hvalue, Option.some.injEq, Value.string.injEq] at hsame
  subst hsame
  have hkept := StringPool.extends_intern strings
    (Utf8.encode (Utf8.decodeLossy ((throwing [255]).strings.get id'))) id' _
    (hextends _ _ (hstart ▸ hfound))
  have hbytes : some (Utf8.encode (Utf8.decodeLossy [255])) = some [255] := htext.symm.trans hkept
  revert hbytes
  decide +kernel

end Machine

end ScriptHost
