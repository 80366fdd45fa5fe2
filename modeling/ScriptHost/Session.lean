import ScriptHost.Program

/-! # Sessions

A host works on a machine step by step and sees what each step came to: its answer, the values of
the running frame, and what the journal recorded meanwhile. At the end the machine is closed.
-/

namespace ScriptHost

/-- What the host sees of the running frame. -/
structure FrameView where
  count : Nat
  /-- The values on top, bottom to top. -/
  last : List Shallow
  deriving Repr, Inhabited

namespace FrameView

/-- How many values are shown of a large frame. -/
def shownOfLarge : Nat := 8

/-- A frame with more values than this is large. -/
def large : Nat := 40

/-- The view of the running frame of a machine. -/
def ofMachine (m : Machine) : FrameView :=
  let shown := if large < m.top then shownOfLarge else m.top
  { count := m.top
    last := (m.stack.extract (m.stack.size - shown) m.stack.size).toList.map m.shallow }

end FrameView

/-- What a step of the host came to. -/
structure Record where
  reply : Reply
  frame : FrameView
  /-- What happened during the step, oldest first. -/
  journal : List JournalEntry
  deriving Inhabited

/-- What a session came to. -/
structure Session where
  records : List Record
  /-- What happened when the machine was closed. -/
  closing : List JournalEntry
  deriving Inhabited

namespace Session

/-- The journal since it was last taken, oldest first. -/
def takeJournal : Act Empty (List JournalEntry) :=
  modifyGet fun m => (m.journal.reverse, { m with journal := [] })

/-- Does a step of the host itself, and answers its failure. -/
def runStep (s : Step) : Act Empty Reply := do
  match ← Act.attempt s.run with
  | .ok (.next r) => pure r
  | .ok (.finish _) => pure .nothing
  | .error e => Act.failure e

/-- Does steps of the host one by one. -/
def runSteps : List Step → Act Empty (List Record)
  | [] => pure []
  | s :: rest => do
      let reply ← runStep s
      let journal ← takeJournal
      let frame := FrameView.ofMachine (← get)
      let later ← runSteps rest
      pure ({ reply, frame, journal } :: later)

/-- Does steps of the host, and then closes the machine. -/
def whole (steps : List Step) : Act Empty Session := do
  let records ← runSteps steps
  Act.close
  let closing ← takeJournal
  pure { records, closing }

def run (limits : Limits) (programs : Programs) (steps : List Step) : Session :=
  match whole steps (programs.host (Programs.maxNesting limits)) (Machine.create limits) with
  | .ok session _ => session
  | .error e _ => e.elim

end Session

end ScriptHost
