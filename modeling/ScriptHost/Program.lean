import ScriptHost.Program.Step

/-! # Programs

The native functions of a host, written as lists of steps. The error of the step that ends a
function is raised by it.
-/

namespace ScriptHost

/-- The native functions of a host by name. -/
abbrev Programs := List (String × List Step)

namespace Programs

/-- Runs the body of a function; the number of its results. -/
def enter (programs : Programs) : Behaviour → Act ScriptError Nat
  | .code (.program name) => do
      let body := (programs.lookup name).getD []
      pure ((← Act.mapError StepError.toScriptError (Step.runAll body)).getD 0)
  | .code (.hook h) => Act.runHook h
  | .code .traceback => Act.traceback
  | .code .classNew => Act.classNew
  | .code .classIsInstance => Act.classIsInstance
  | .code .classIsType => Act.classIsType
  | .readProperty p => Act.readProperty p
  | .writeProperty p => Act.writeProperty p
  | .readPropertyOrField => Act.readPropertyOrField

/-- A host that runs programs, with calls nested so deep at most. -/
def host (programs : Programs) : Nat → Host
  | 0 => { enter := fun _ => throw .stackOverflow }
  | depth + 1 => { enter := fun b => (enter programs b).run (host programs depth) }

/-- How deep calls can be nested. Frames bound the depth, and they can be dropped once, when the
    machine is closed. -/
def maxNesting (limits : Limits) : Nat := 2 * limits.callDepth + 2

end Programs

end ScriptHost
