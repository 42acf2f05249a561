import QmlScript.Compile
import QmlScript.Gamepad

/-!
# Commands

A command works in a workspace and ends with an exit code, or with an error that nobody took care of.
-/

namespace QmlScript

inductive Stop where
  | exit (code : Nat)
  | failure (cause : BuildError)
  | gamepad (cause : Gamepad.ConvertError)

abbrev Command := ExceptT Stop (StateM Workspace)

namespace Command

def ofJob {α : Type} (job : Job α) : Command α := ExceptT.adapt .failure job

def say (line : String) : Command Unit := ofJob (Job.say line)

def print (line : String) : Command Unit := modify fun w => { w with output := w.output ++ [line] }

def exit {α : Type} (code : Nat) : Command α := throw (.exit code)

def tryJob {α : Type} (job : Job α) : Command (Except BuildError α) := do
  let (result, w) := job.run.run (← get)
  set w
  return result

def setting {α : Type} (value : Except SettingError α) : Command α := ofJob (Job.setting value)

end Command
end QmlScript
