import ScriptHost.Proofs.Armed
import ScriptHost.Proofs.CachedFunction
import ScriptHost.Proofs.MarshaledCall
import ScriptHost.Proofs.Survival

/-! # Tracebacks

A message that is raised inside a protected entry point comes out with a line for every frame that
was active where it was raised. The handler that adds the lines needs a frame of its own there.
-/

namespace ScriptHost

/-- A host that runs the traceback of the library. -/
def Host.Traces (host : Host) : Prop := ∃ inner, host.enter (.code .traceback) = Act.traceback inner

theorem Programs.host_traces (programs : Programs) (nesting : Nat) :
    (programs.host (nesting + 1)).Traces := ⟨_, rfl⟩

namespace Machine

variable {m m' : Machine} {message text : String} {id : StringId} {v raised handler : Value}
  {position count : Nat} {wanted : Int}

/-- A message with a line for every active frame, innermost first. -/
def traced (m : Machine) (message : String) : String :=
  String.join (message :: m.frames.map fun f => "\n" ++ f.origin.describe)

/-- What the traceback tells of a message where it is raised. Without room for a call it fails. -/
def told (m : Machine) (message : String) : String :=
  if ((m.push .nil).push .nil).atLimit then ScriptError.errorInHandler.message else m.traced message

/-- Nothing stands in the innermost protected call for an error of this value. -/
def Unseen (e : ScriptError) (m : Machine) : Prop :=
  ∀ g d, m.guards.head? = some g → g.decoration = some d → d.raised ≠ (m.errorValue e).1

/-- A string of a machine that is the encoding of a text. -/
def IsTextOf (m : Machine) (v : Value) (text : String) : Prop :=
  ∃ id, v = .string id ∧ m.strings.strings[id]? = some (Utf8.encode text)

theorem IsTextOf.extend (h : m.IsTextOf v text) (hstrings : m.strings.Extends m'.strings) :
    m'.IsTextOf v text := by
  obtain ⟨id, hv, hid⟩ := h
  exact ⟨id, hv, hstrings _ _ hid⟩

theorem IsTextOf.decode (h : m.IsTextOf (.string id) text) :
    Utf8.decodeLossy (m.strings.get id) = text := by
  obtain ⟨id', hid', hbytes⟩ := h
  obtain rfl := Value.string.inj hid'
  rw [StringPool.get, hbytes, Option.getD_some, Utf8.decodeLossy_encode]

theorem Outcome.isTextOf {outcome : Value} {answer : Option Value} (h : m.Outcome outcome answer)
    (hanswer : ∀ v, answer = some v → m.IsTextOf v text)
    (hnone : answer = none → text = ScriptError.errorInHandler.message) : m.IsTextOf outcome text := by
  cases answer with
  | some v => exact h ▸ hanswer v rfl
  | none => exact hnone rfl ▸ h

theorem IsTextOf.read {i : StackIndex} (h : m.IsTextOf (m.value i) text) (hi : m.isValid i = true) :
    m.isText i = true ∧ m.textAt i = (some text, m) := by
  obtain ⟨id, hv, hbytes⟩ := h
  constructor
  · simp [isText, kindAt, hi, hv, Value.kind]
  · have hstring : m.stringAt i = (some id, m) := by simp [stringAt, hv]
    have hget : m.strings.get id = Utf8.encode text := by
      rw [StringPool.get, hbytes, Option.getD_some]
    simp [textAt, bytesAt, hstring, hget, Utf8.decodeLossy_encode]

theorem strings_resize {n : Nat} : (m.resize n).strings = m.strings := by
  unfold resize
  split <;> rfl

theorem strings_returnResults :
    (m.returnResults position wanted count).strings = m.strings := by
  have hforget : m.forgetDecoration.strings = m.strings := by rw [forgetDecoration_eq]
  unfold returnResults
  dsimp only
  split
  · exact hforget
  · rw [strings_resize]
    exact hforget

/-- A message handler takes the room of two values and of a call. -/
theorem atLimit_beginHandling :
    (m.beginHandling handler raised).atLimit = ((m.push .nil).push .nil).atLimit := by
  rw [beginHandling_eq]
  simp only [atLimit, push, depth, Array.size_push]
  rfl

theorem laid_beginHandling :
    Laid m.base (m.stack.toList ++ handler :: [raised]) (m.beginHandling handler raised) := by
  rw [beginHandling_eq]
  exact ⟨rfl, by simp⟩

theorem laid_enterHandler (handler raised : Value) (origin : Origin) :
    Laid (m.stack.size + 1) ((m.stack.toList ++ [handler]) ++ raised :: [])
      ((m.beginHandling handler raised).enterFrame ⟨m.stack.size, origin⟩) := by
  rw [List.append_assoc]
  exact ⟨rfl, laid_beginHandling.stack⟩

/-- The frame of the handler itself gets no line. -/
theorem withTraceback_enterHandler (f : Frame) :
    ((m.beginHandling handler raised).enterFrame f).withTraceback message = m.traced message := by
  rw [withTraceback, traced, enterFrame, List.tail_cons, beginHandling_eq]

theorem heap_sinkTop : (m.sinkTop position).heap = m.heap := by
  unfold sinkTop
  split <;> rfl

theorem laid_sinkTop (hback : m.stack.back? = some v) (hp : position < m.stack.size) :
    ∃ below above, below.length = position ∧ m.stack.size = below.length + (above.length + 1) ∧
      Laid m.base (below ++ v :: above) (m.sinkTop position) := by
  obtain ⟨s, hs⟩ : ∃ s, m.stack.toList = s ++ [v] := by
    rw [← Array.getLast?_toList] at hback
    exact ⟨_, (List.dropLast_append_getLast? v hback).symm⟩
  have hsize : m.stack.size = s.length + 1 := by rw [← Array.length_toList, hs]; simp
  have hlength : (s.take position).length = position := by
    rw [List.length_take]
    omega
  have htop : Laid m.base (s.take position ++ s.drop position ++ [v]) m :=
    ⟨rfl, by rw [List.take_append_drop, hs]⟩
  have hsunk := htop.sinkTop
  rw [hlength] at hsunk
  refine ⟨s.take position, s.drop position, hlength, ?_, hsunk⟩
  rw [hlength, List.length_drop]
  omega

/-- The one result of a function takes the place of the function and its argument. -/
theorem toList_returned {f : Frame} {frames : List Frame} {below : List Value} {w : Value}
    (hstack : m.stack.toList = below ++ [w, raised, v]) (hframes : m.frames = f :: frames)
    (hf : f.function = below.length) :
    (m.returnResults below.length 1 1).stack.toList = below ++ [v] := by
  have hover : (below ++ [w]) <+: m.stack.toList := by simp [hstack]
  have hbase : m.base = (below ++ [w]).length := by simp [base, hframes, Frame.base, hf]
  have hown : m.own = [raised, v] := by
    rw [own, hstack, hbase, show below ++ [w, raised, v] = (below ++ [w]) ++ [raised, v] by simp,
      List.drop_left]
  rw [toList_returnResults hover hframes hf, hown]
  rfl

end Machine

namespace Act

open Machine

variable {host : Host} {m m' : Machine} {message text : String} {id : StringId}
  {handler raised : Value} {count position : Nat} {wanted : Int} {e : ScriptError}

/-! ## The handler -/

/-- The traceback adds the lines of all frames but its own to the text that it is given. -/
theorem traceback_eq (h : m.IsTextOf (m.value (.fromBottom 1)) text)
    (hvalid : m.isValid (.fromBottom 1) = true) (host : Host) :
    traceback host m = .ok 1 (m.pushText (m.withTraceback text)) := by
  obtain ⟨htext, hread⟩ := h.read hvalid
  rw [traceback, run_bind, run_get]
  simp only [htext, Bool.not_true, Bool.false_eq_true, if_false, run_bind, run_modifyGet, hread,
    run_get, run_modify, run_pure, Option.getD_some]

theorem enter_traceback (htraces : host.Traces) (htext : m.IsTextOf raised message) (origin : Origin)
    {entered : Machine}
    (hentered : (m.beginHandling handler raised).enterFrame ⟨m.stack.size, origin⟩ = entered) :
    host.enter (.code .traceback) entered = .ok 1 (entered.pushText (m.traced message)) := by
  obtain ⟨inner, htraces⟩ := htraces
  have hlaid := hentered ▸ laid_enterHandler (m := m) handler raised origin
  have hlength : (m.stack.toList ++ [handler]).length = m.stack.size + 1 := by simp
  have hvalue := hlaid.value_fromBottom (n := 1) (Nat.le_of_eq hlength.symm) (by rw [hlength])
  have hposition := hlaid.position_fromBottom (n := 1) (Nat.le_of_eq hlength.symm) (by rw [hlength])
  have htext' : entered.IsTextOf raised message := by
    refine htext.extend ?_
    rw [← hentered, enterFrame, beginHandling_eq]
    exact .refl _
  rw [htraces, traceback_eq (hvalue ▸ htext') (by simp [isValid, hposition]) inner, ← hentered,
    withTraceback_enterHandler]

/-- Where there is room for it, the traceback is called with a message and answers with the lines
    added. -/
theorem callHandler_traceback (htraces : host.Traces) (hh : m.Implements handler .traceback)
    (htext : m.IsTextOf raised message) (hroom : (m.beginHandling handler raised).atLimit = false) :
    ∃ last v, callHandler m.stack.size host (m.beginHandling handler raised) = .ok () last ∧
      last.closed = m.closed ∧ last.stack[m.stack.size]? = some v ∧
      last.IsTextOf v (m.traced message) := by
  obtain ⟨slot, body, rfl, hbody, hcode⟩ := hh
  obtain ⟨f, hf, rfl⟩ := Heap.identity?_function.mp hbody
  have hcallee : callee m.stack.size (m.beginHandling (.function slot) raised) =
      .ok slot (m.beginHandling (.function slot) raised) := by
    refine callee_function ?_
    rw [← Array.length_toList]
    exact laid_beginHandling.getElem?
  have hheap : (m.beginHandling (.function slot) raised).heap = m.heap := by rw [beginHandling_eq]
  obtain ⟨entered, hentered⟩ : ∃ entered, (m.beginHandling (.function slot) raised).enterFrame
      ⟨m.stack.size, f.body.origin⟩ = entered := ⟨_, rfl⟩
  have hrun := hcode ▸ enter_traceback htraces htext f.body.origin hentered
  have hpushed : (entered.pushText (m.traced message)).stack.toList =
      m.stack.toList ++ [.function slot, raised,
        .string (entered.strings.intern (Utf8.encode (m.traced message))).1] := by
    have hlaid := hentered ▸ laid_enterHandler (m := m) (.function slot) raised f.body.origin
    simp only [pushText, pushBytes, push, intern, Array.toList_push, hlaid.stack]
    simp
  have hreturned := toList_returned hpushed (f := ⟨m.stack.size, f.body.origin⟩)
    (by rw [← hentered]; rfl) (by simp)
  rw [Array.length_toList] at hreturned
  refine ⟨(entered.pushText (m.traced message)).returnResults m.stack.size 1 1,
    .string (entered.strings.intern (Utf8.encode (m.traced message))).1, ?_, ?_, ?_, ?_⟩
  · rw [callHandler, invoke_eq, if_neg (by simp [hroom]), hcallee]
    simp only [hheap, hf, hentered, hrun]
  · rw [closed_returnResults, ← hentered]
    simp only [pushText, pushBytes, push, intern, enterFrame, beginHandling_eq]
  · rw [← Array.getElem?_toList, hreturned, List.getElem?_append_right (by simp)]
    simp
  · refine ⟨_, rfl, ?_⟩
    rw [strings_returnResults]
    exact StringPool.intern_found

/-- What the handler that is due answers to a message, and that it leaves the machine open. -/
theorem answer_traceback (htraces : host.Traces) (hh : m.Implements handler .traceback)
    (htext : m.IsTextOf raised message) :
    (Op.after (callHandler m.stack.size host) (m.beginHandling handler raised)).closed = m.closed ∧
    (∀ v, answer host m.stack.size (m.beginHandling handler raised) = some v →
      (Op.after (callHandler m.stack.size host) (m.beginHandling handler raised)).IsTextOf v
        (m.told message)) ∧
    (answer host m.stack.size (m.beginHandling handler raised) = none →
      m.told message = ScriptError.errorInHandler.message) := by
  cases hroom : (m.beginHandling handler raised).atLimit with
  | true =>
      have hcall : callHandler m.stack.size host (m.beginHandling handler raised) =
          .error .stackOverflow (m.beginHandling handler raised) := by
        rw [callHandler, invoke_eq, if_pos hroom]
      refine ⟨?_, fun v hv => ?_, fun _ => ?_⟩
      · rw [Op.after_error hcall, beginHandling_eq]
      · simp [answer, hcall] at hv
      · rw [told, if_pos (atLimit_beginHandling ▸ hroom)]
  | false =>
      obtain ⟨last, v, hcall, hclosed, hv, htold⟩ := callHandler_traceback htraces hh htext hroom
      rw [atLimit_beginHandling] at hroom
      have htold' : m.told message = m.traced message := by rw [told, if_neg (by simp [hroom])]
      have hanswer : answer host m.stack.size (m.beginHandling handler raised) = some v := by
        simp [answer, hcall, hv]
      rw [Op.after_ok hcall, hanswer, htold']
      exact ⟨hclosed, fun v' hv' => Option.some.inj hv' ▸ htold, fun hnone => by cases hnone⟩

/-- A message that is shown to the traceback, of which no record stands yet, is told with the lines of
    all frames. -/
theorem showHandler_traceback (hhost : host.Lawful) (htraces : host.Traces) (hm : m.Reachable)
    (hheeds : m.Heeds handler) (hh : m.Implements handler .traceback)
    (hunseen : m.Unseen (.runtime message)) :
    ∃ shown d, (showHandler (.runtime message) : Act ScriptError Unit) host m = .ok () shown ∧
      shown.closed = m.closed ∧ shown.Decorated (.runtime message) d ∧
      shown.IsTextOf d.outcome (m.told message) := by
  obtain ⟨valued, hvalued⟩ : ∃ valued, (m.errorValue (.runtime message)).2 = valued := ⟨_, rfl⟩
  obtain ⟨raised, hraised⟩ : ∃ raised, (m.errorValue (.runtime message)).1 = raised := ⟨_, rfl⟩
  have htext : valued.IsTextOf raised message := by
    rw [← hvalued, ← hraised]
    exact ⟨_, rfl, StringPool.intern_found⟩
  have hh' : valued.Implements handler .traceback := hh.extend (hvalued ▸ id)
  obtain ⟨hclosed, hsome, hnone⟩ := answer_traceback htraces hh' htext
  have htold : valued.told message = m.told message := by rw [← hvalued]; rfl
  obtain ⟨shown, hshow, hshown⟩ : ∃ shown,
      (showHandler (.runtime message) : Act ScriptError Unit) host m = .ok () shown ∧
      shown = (Op.after (callHandler valued.stack.size host) (valued.beginHandling handler raised)).endHandling
        valued.stack.size raised (answer host valued.stack.size (valued.beginHandling handler raised)) := by
    rcases showHandler_heeds (ε := ScriptError) (.runtime message) host hheeds with
      ⟨g, rest, d, hguards, hd, hknown, -⟩ | hrun
    · exact (hunseen g d (by rw [hguards]; rfl) hd hknown).elim
    · rw [hvalued, hraised, runHandler_eq] at hrun
      exact ⟨_, hrun, rfl⟩
  have hshut : shown.closed = m.closed := by
    rw [hshown, closed_endHandling, hclosed, ← hvalued]
    rfl
  obtain ⟨d, hdecorated, hsame, hold | houtcome⟩ :=
    decorated_showHandler hhost hm hheeds hshow hshut
  · obtain ⟨g, hg, hd⟩ := hold
    exact (hunseen g d hg hd hsame).elim
  · refine ⟨shown, d, hshow, hshut, hdecorated, ?_⟩
    have hsize : m.stack.size = valued.stack.size := by rw [← hvalued]; rfl
    rw [hvalued, hraised, hsize] at houtcome
    refine htold ▸ houtcome.isTextOf (fun v hv => ?_) hnone
    exact (hsome v hv).extend (hshown ▸ strings_endHandling)

/-! ## The message that comes out -/

variable {raise : Machine} {n : Nat} {i : StackIndex}

theorem protectedCall_traceback (hhost : host.Lawful) (htraces : host.Traces) (hm : m.Reachable)
    (wanted : Int) (hp : m.functionBelow? count = some position)
    (hh : m.Implements (m.value i) .traceback)
    (hchain : Chain host (.runtime message) raise (Quiet []) n position
      (m.pushGuard { handler := some (m.value i) }))
    (hclosed : raise.closed = m.closed)
    (hunseen : raise.Unseen (.runtime message)) :
    ∃ m', protectedCall count wanted (some i) host m = .error (.runtime (raise.told message)) m' ∧
      m'.closed = m.closed ∧
      ∃ v, m'.stack.back? = some v ∧ m'.IsTextOf v (raise.told message) := by
  have hguarded := hm.pushGuard (some (m.value i))
  obtain ⟨hbase, hlt⟩ := functionBelow?_bounds hp
  have hdescent := hchain.descent hhost hguarded.framed hbase hlt
  have hraise := hguarded.moves hdescent.moves
  have hh' : raise.Implements (m.value i) .traceback := by
    -- The handler is still the same function where the message is raised.
    obtain ⟨slot, body, hv, hid, hbody⟩ := hh
    have hretains : Retains (m.value i) (m.pushGuard { handler := some (m.value i) }) raise :=
      hdescent.retains_handlers hguarded.framed hclosed List.mem_cons_self
    exact ⟨slot, body, hv, hdescent.moves.identity hguarded hretains (by rw [hv]; rfl) hid, hbody⟩
  obtain ⟨told, d, hshow, hshut, hdecorated, htext⟩ := showHandler_traceback hhost htraces hraise
    (hdescent.heeds hguarded.framed hclosed) hh' hunseen
  have htold := hraise.runs ((showHandler_lawful _).run_ok hhost hraise.framed hshow)
  obtain ⟨shown, hmoves, hstands, hopen, hfail⟩ :=
    hchain.decorated_protected (some i) hm hhost hp wanted hshow htold hdecorated
  obtain ⟨id, hid, hbytes⟩ := htext.extend (Moves.strings hmoves)
  have hfinal := (hstands.failProtected m.depth position).1
  rw [hid, ScriptError.ofValue, (show shown.IsTextOf (.string id) _ from ⟨id, rfl, hbytes⟩).decode]
    at hfinal
  obtain ⟨strings, -, -, htop, hstrings⟩ := failProtected_value shown
    (.runtime message) m.depth position
  rw [hfinal] at hfail htop hstrings
  refine ⟨_, hfail, (hopen.trans hshut).trans hclosed, _, htop, _, rfl, ?_⟩
  rw [hstrings]
  exact StringPool.intern_found

/-! ## Protected entry points -/

/-- A protected entry point. -/
inductive Entry where
  /-- Calls the function below so many arguments. -/
  | plain (count : Nat)
  /-- Marshals more arguments first. -/
  | marshaled (count : Nat) (ds : List Directive) (args : List Argument)
  /-- Finds the function first, too. -/
  | of (callee : Callee) (ds : List Directive) (args : List Argument)

/-- What a marshaled call does before it calls; the number of arguments. -/
def pushArguments (count : Nat) (ds : List Directive) (args : List Argument) : Act ScriptError Nat := do
  let top := (← get).top
  if top < count + 1 then fail .noFunctionBelow
  match ← safely (Reading.format (top - count) ds args) with
  | none => pure (count + ((← get).top - top))
  | some e => throw (.runtime e.message)

/-- What an entry point does before it calls; the number of arguments. -/
def Entry.arguments : Entry → Act ScriptError Nat
  | .plain count => pure count
  | .marshaled count ds args => pushArguments count ds args
  | .of callee ds args => do
      modify fun m => { m with callSite := true }
      let count ← pushCallee callee
      pushArguments count ds args

/-- Puts the traceback below a function and its arguments, and gives its index. -/
def installTraceback (count : Nat) : Act ScriptError StackIndex := do
  cachedNative .traceback
  let handler := StackIndex.fromBottom ((← get).functionNumber count)
  Op.insert handler
  pure handler

def Entry.run (wanted : Int) : Entry → Act ScriptError Unit
  | .plain count => tracedCall count wanted
  | .marshaled count ds args => do let _ ← callMarshaled count wanted ds args .guarded
  | .of callee ds args => do let _ ← invocation callee wanted ds args .guarded

variable {called ready failed : Machine} {handler : StackIndex} {entry : Entry} {ds : List Directive}
  {args : List Argument}

theorem pushArguments_eq (h : pushArguments count ds args host m = .ok n called) : count + 1 ≤ m.top ∧
    Reading.format (m.top - count) ds args host m = .ok none called ∧ n = count + (called.top - m.top) := by
  rw [pushArguments, run_bind, run_get] at h
  dsimp only at h
  by_cases hcount : m.top < count + 1
  · rw [if_pos hcount] at h
    cases h
  · rw [if_neg hcount, safely, run_bind, run_mapError] at h
    cases hread : Reading.format (m.top - count) ds args host m with
    | error e _ => exact e.elim
    | ok problem m₁ =>
        rw [hread] at h
        cases problem with
        | some e => cases h
        | none =>
            cases h
            exact ⟨by omega, rfl, rfl⟩

theorem pushArguments_lawful (count : Nat) (ds : List Directive) (args : List Argument) :
    (pushArguments count ds args).Lawful := by
  have hread : ∀ top : Nat, (do
      match ← safely (Reading.format (top - count) ds args) with
      | none => pure (count + ((← get).top - top))
      | some e => throw (.runtime e.message) : Act ScriptError Nat).Lawful := by
    refine fun top => .bind (safely_lawful (Reading.format_lawful _ _ _)) fun problem => ?_
    cases problem with
    | none => exact .bind .get fun _ => .pure _
    | some e => exact .throw _
  exact .bind .get fun m => .ite (.bind (.lift (.fail _)) fun _ => hread _) (hread _)

theorem Entry.arguments_lawful (entry : Entry) : entry.arguments.Lawful := by
  cases entry with
  | plain count => exact .pure _
  | marshaled count ds args => exact pushArguments_lawful _ _ _
  | of callee ds args =>
      exact .bind (.modify fun m => (Change.host _ _ _ _ _).leads) fun _ =>
        .bind (pushCallee_lawful _) fun _ => pushArguments_lawful _ _ _

theorem installTraceback_lawful (count : Nat) : (installTraceback count).Lawful :=
  .bind (cachedNative_lawful _) fun _ => .bind .get fun _ => .bind (.lift (Op.insert_lawful _)) fun _ =>
    .pure _

theorem installTraceback_eq (h : installTraceback count host m = .ok handler ready) :
    ∃ m' p, (cachedNative .traceback : Act ScriptError Unit) host m = .ok () m' ∧
      handler = .fromBottom (m'.functionNumber count) ∧ m'.position? handler = some p ∧
      ready = m'.sinkTop p := by
  rw [installTraceback, run_bind] at h
  cases hcached : (cachedNative .traceback : Act ScriptError Unit) host m with
  | error e m' => simp [hcached] at h
  | ok u m' =>
      simp only [hcached, run_bind, run_get, run_lift] at h
      rw [Op.insert, Op.run_bind, Op.position_eq] at h
      cases hp : m'.position? (.fromBottom (m'.functionNumber count)) with
      | none => simp [hp] at h
      | some p =>
          simp only [hp] at h
          cases h
          exact ⟨m', p, rfl, rfl, hp, rfl⟩

/-- The traceback lies right below the function. -/
theorem installTraceback_spec (hhost : host.Lawful) (hm : m.Reachable)
    (h : installTraceback count host m = .ok handler ready)
    (hp : ready.functionBelow? count = some position) :
    ready.Implements (ready.value handler) .traceback ∧
    ∃ below, ready.stack.toList.take position = below ++ [ready.value handler] ∧
      ready.base ≤ below.length ∧ position = below.length + 1 ∧
      handler = .fromBottom (below.length + 1 - ready.base) := by
  obtain ⟨m', p, hcached, rfl, hposition, rfl⟩ := installTraceback_eq h
  obtain ⟨v, hv, hback⟩ := cachedNative_implements hhost hm hcached
  obtain ⟨hn, hle, hpe⟩ : 1 ≤ m'.functionNumber count ∧
      m'.base + m'.functionNumber count ≤ m'.stack.size ∧ m'.base + m'.functionNumber count - 1 = p := by
    simpa [position?, and_assoc] using hposition
  have hlt : p < m'.stack.size := by omega
  obtain ⟨below, above, rfl, hsize, hlaid⟩ := laid_sinkTop hback hlt
  have hvalue : (m'.sinkTop below.length).value (.fromBottom (m'.functionNumber count)) = v :=
    hlaid.value_fromBottom (by omega) (by omega)
  -- With the traceback below it the function is one position further up.
  have htop : (m'.sinkTop below.length).top = m'.top := by
    rw [hlaid.top, Machine.top, hsize, List.length_append, List.length_cons]
  rw [functionBelow?, htop, hlaid.base] at hp
  split at hp
  case isFalse => cases hp
  case isTrue hcount =>
    have hnumber : m'.functionNumber count = m'.top - (count + 1) := by
      rw [functionNumber, if_pos (by omega)]
    obtain rfl : below.length + 1 = position := by
      rw [← Option.some.inj hp]
      omega
    rw [hvalue, hlaid.base, hlaid.stack, List.append_cons]
    refine ⟨hv.extend (heap_sinkTop ▸ id), below, List.take_left' (by simp), by omega, rfl, ?_⟩
    congr 1
    omega

/-- What is left of a call with a traceback that fails with a message: the message on top. -/
theorem tracedCall_installed (hhost : host.Lawful) (hm : m.Reachable)
    (h : installTraceback count host m = .ok handler ready)
    (hp : ready.functionBelow? count = some position) {v : Value}
    (hfail : protectedCall count wanted (some handler) host ready = .error (.runtime text) failed)
    (hclosed : failed.closed = ready.closed) (htop : failed.stack.back? = some v)
    (htext : failed.IsTextOf v text) :
    ∃ m', tracedCall count wanted host m = .error (.runtime text) m' ∧ m'.errorMessage.1 = text := by
  have hready := hm.runs ((installTraceback_lawful count).run_ok hhost hm.framed h)
  obtain ⟨-, below, hbelow, hbase, rfl, hhandler⟩ := installTraceback_spec hhost hm h hp
  have hstack := hready.protectedCall_failed hhost hp hfail hclosed
  have hkept := (protectedCall_lawful _ _ _).run_error hhost hready.framed hfail
  have hlaid : Laid ready.base (below ++ ready.value handler :: [v]) failed := by
    refine ⟨(hkept.isolated hready.framed hclosed).base, ?_⟩
    rw [hbelow, List.append_assoc] at hstack
    rw [← Array.getLast?_toList, hstack, ← List.append_assoc, List.getLast?_concat] at htop
    rw [hstack, Option.some.inj htop]
    rfl
  have hremove : Op.remove handler failed = .ok ⟨⟩ (failed.eraseAt below.length) := by
    rw [Op.remove, Op.run_bind, Op.position_eq, hhandler,
      hlaid.position_fromBottom hbase (by omega)]
    rfl
  refine ⟨failed.eraseAt below.length, ?_, ?_⟩
  · obtain ⟨m', p, hcached, rfl, hposition, rfl⟩ := installTraceback_eq h
    have hinsert : Op.insert (.fromBottom (m'.functionNumber count)) m' = .ok ⟨⟩ (m'.sinkTop p) := by
      rw [Op.insert, Op.run_bind, Op.position_eq, hposition]
      rfl
    rw [tracedCall, run_bind, hcached]
    simp only [run_bind, run_get, run_lift, hinsert, run_attempt, hfail, hremove]
    rfl
  · have herased := hlaid.eraseAt
    have hvalue := herased.value_fromTop (n := 1) (t := []) hbase rfl
    have hposition := herased.position_fromTop (n := 1) (t := []) hbase rfl
    have htext' : (failed.eraseAt below.length).IsTextOf
        ((failed.eraseAt below.length).value .top) text := by
      rw [StackIndex.top, hvalue]
      exact htext
    obtain ⟨hisText, hread⟩ := htext'.read (by simp [isValid, StackIndex.top, hposition])
    simp [errorMessage, hisText, hread]

theorem Entry.run_fails (h : entry.arguments host m = .ok count called)
    (hcall : tracedCall count wanted host called = .error (.runtime text) failed)
    (htext : failed.errorMessage.1 = text) : ∃ m', entry.run wanted host m = .error (.runtime text) m' := by
  have hguarded : callProtected .guarded count wanted host called =
      .error (.runtime text) failed.errorMessage.2 := by
    rw [callProtected, run_bind, run_attempt, hcall]
    simp only [run_bind, run_modifyGet, run_throw, htext]
  have hmarshaled : ∀ {m : Machine} {given : Nat} {ds : List Directive} {args : List Argument},
      pushArguments given ds args host m = .ok count called →
      ∃ m', callMarshaled given wanted ds args .guarded host m = .error (.runtime text) m' := by
    intro m given ds args hargs
    obtain ⟨hcount, hread, rfl⟩ := pushArguments_eq hargs
    rw [callMarshaled_eq wanted .guarded hcount hread]
    simp only [callFormatted, run_bind, run_get, run_attempt, hguarded]
    exact ⟨_, rfl⟩
  cases entry with
  | plain given =>
      cases h
      exact ⟨_, hcall⟩
  | marshaled given ds args =>
      obtain ⟨m', hrun⟩ := hmarshaled h
      exact ⟨m', by rw [Entry.run, run_bind, hrun]⟩
  | of callee ds args =>
      simp only [Entry.arguments, run_bind, run_modify] at h
      cases hcallee : pushCallee callee host { m with callSite := true } with
      | error e m₁ => simp [hcallee] at h
      | ok given m₁ =>
          simp only [hcallee] at h
          obtain ⟨m', hrun⟩ := hmarshaled h
          exact ⟨m', by simp only [Entry.run, invocation, run_bind, run_modify, hcallee, hrun]⟩

end Act

namespace Machine

open Act

variable {host : Host} {m called ready raise : Machine} {entry : Entry} {count position n : Nat}
  {i : StackIndex} {message : String}

theorem Descent.limits {m' : Machine} (h : Descent n m m') : m'.limits = m.limits := by
  induction h with
  | refl => rfl
  | run hrun _ ih => exact ih.trans hrun.limits
  | enter f _ _ _ ih => exact ih

/-- The room that the traceback needs where a message is raised. -/
theorem told_eq : raise.told message =
    if raise.depth < raise.limits.callDepth ∧ raise.stack.size + 2 ≤ raise.limits.stackSlots then
      raise.traced message
    else ScriptError.errorInHandler.message := by
  have hlimit : ((raise.push .nil).push .nil).atLimit = false ↔
      raise.depth < raise.limits.callDepth ∧ raise.stack.size + 2 ≤ raise.limits.stackSlots := by
    have hsize : ((raise.push .nil).push .nil).stack.size = raise.stack.size + 2 := by simp [push]
    rw [atLimit, hsize]
    change (decide (raise.limits.callDepth ≤ raise.depth) ||
      decide (raise.limits.stackSlots < raise.stack.size + 2)) = false ↔ _
    simp only [Bool.or_eq_false_iff, decide_eq_false_iff_not, Nat.not_le, Nat.not_lt]
  unfold told
  by_cases hroom : raise.depth < raise.limits.callDepth ∧ raise.stack.size + 2 ≤ raise.limits.stackSlots
  · rw [if_pos hroom, if_neg (by simp [hlimit.mpr hroom])]
  · rw [if_neg hroom, if_pos (by simpa [hroom] using hlimit)]

def failingHost : Host :=
  Programs.host [("f", [.basic (.raise (.error (.runtime "boom")))])] 1

def installed : Machine :=
  { Op.after ((cachedNative .traceback : Act ScriptError Unit) failingHost) calling with
    stack := #[.function 1, .function 0] }

theorem installTraceback_calling :
    installTraceback 0 failingHost calling = .ok (.fromBottom 1) installed := by
  have hstack : #[.function 1, .function 0] =
      (#[Value.function 0] : Array Value).insertIdxIfInBounds 0 (.function 1) := by
    simp [Array.insertIdxIfInBounds]
  rw [installed, hstack]
  rfl

end Machine

end ScriptHost
