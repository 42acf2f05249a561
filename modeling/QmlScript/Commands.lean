import QmlScript.Build

/-!
# All commands

One command builds programs, one brings a catalog of localized texts up to date, and one converts a
database of game controllers.
-/

namespace QmlScript

inductive Tool where
  | build
  | updateCatalog
  | convertGamepads
  deriving DecidableEq, Repr

namespace Tool

open CommandLine (Arguments Form Refusal)

def name : Tool → String
  | .build => "build"
  | .updateCatalog => "update-ts"
  | .convertGamepads => "generate-gamepad-mappings"

def ofName? (name : String) : Option Tool :=
  [Tool.build, .updateCatalog, .convertGamepads].find? fun tool => tool.name = name

def form : Tool → Form
  | .build => Build.form
  | .updateCatalog =>
    { title := "update-ts",
      switches := [
        { names := ["--ts", "-t"], arity := .one, words := "TS", help := "tr file to write to" }],
      places := [{ name := "directory", count := .many }] }
  | .convertGamepads =>
    { title := "generate-gamepad-mappings", switches := [],
      places := [{ name := "file" }, { name := "output" }] }

def runUpdate (path : Option String) (directories : List String) : Command Unit := do
  match path with
  | none => throw (.failure (.kind (.notPath "NoneType")))
  | some path =>
    let tree := (← get).tree
    let tree ← Command.ofJob
      (Job.ofExcept .catalog (Localization.Catalog.update tree path none directories))
    modify fun w => { w with tree }

def runConversion (source target : String) : Command Unit := do
  let (result, tree) := (Gamepad.convert source target).run.run (← get).tree
  modify fun w => { w with tree }
  match result with
  | .ok () => return
  | .error e => throw (.gamepad e)

def run (tool : Tool) (program : String) (words : List String) : Command Unit := do
  match tool.form.read words with
  | .error .usage => Command.exit 2
  | .error .help => do
    for line in tool.form.help do Command.print line
    Command.exit 0
  | .ok arguments =>
    match tool with
    | .build => Build.run program (.ofArguments arguments)
    | .updateCatalog => runUpdate (arguments.word? "--ts") (arguments.place 0)
    | .convertGamepads =>
      runConversion ((arguments.place 0).headD "") ((arguments.place 1).headD "")

/-- The exit code or the error of a command, and the workspace behind it. -/
def start (tool : Tool) (program : String) (words : List String) (workspace : Workspace) :
    Except Stop Nat × Workspace :=
  match (tool.run program words).run.run workspace with
  | (.ok (), w) => (.ok 0, w)
  | (.error (.exit code), w) => (.ok code, w)
  | (.error stop, w) => (.error stop, w)

end Tool
end QmlScript
