import QmlScript.CommandLine

/-!
# Options of the build command
-/

namespace QmlScript.Build

open CommandLine (Arguments Form Switch)

inductive Jobs where
  | given (text : String)
  | all
  | single
  deriving DecidableEq, Repr

structure Options where
  watch : Bool := false
  webRoot : Option String := none
  updateCatalogs : Bool := false
  isNew : Bool := false
  documentation : Option String := none
  release : Bool := false
  platforms : List String := []
  verbose : Bool := false
  jobs : Jobs := .single
  properties : List (String × String) := []
  printed : Option String := none
  manifest : String := ".manifest"
  /-- The applications to build; none means all. -/
  targets : List String := []

def form : Form where
  title := "qmlcore build tool"
  switches := [
    { names := ["--minify", "-m"], help := "force minify step" },
    { names := ["--no-minify", "-M"], help := "force non-minified code generation" },
    { names := ["--devel", "-d"],
      help := "development mode, listen for changed files, rebuild if changed" },
    { names := ["--keep-temp", "-k"], help := "keep temp files (e.g qml.js)" },
    { names := ["--web-prefix", "-W"], arity := .one, words := "WEB_PREFIX",
      help := "web prefix for hybrid sites/apps" },
    { names := ["--update-translation", "-u"], help := "update translation only" },
    { names := ["--boilerplate"], help := "create simple skeleton project" },
    { names := ["--doc", "-D"], arity := .one, words := "DOC",
      help := "generate documentation in given directory" },
    { names := ["--release", "-r"], help := "generate release code (no logs)" },
    { names := ["--platform", "-p"], arity := .one, words := "PLATFORM",
      help := "generate code for platform <platform>" },
    { names := ["--verbose", "-v"], help := "adds verbosity in some places" },
    { names := ["--jobs", "-j"], arity := .optional, words := "JOBS",
      help := "run N jobs in parallel" },
    { names := ["--set-property", "-s"], arity := .two, words := "PROPERTIES",
      help := "sets manifest property name value" },
    { names := ["--print-property", "-P"], arity := .one, words := "PRINT_PROPERTY",
      help := "get manifest property" },
    { names := ["--manifest"], arity := .one, words := "MANIFEST", help := "app manifest path" }]
  places := [{ name := "targets", count := .any, help := "targets to build" }]

def Options.ofArguments (arguments : Arguments) : Options where
  watch := arguments.has "--devel"
  webRoot := arguments.word? "--web-prefix"
  updateCatalogs := arguments.has "--update-translation"
  isNew := arguments.has "--boilerplate"
  documentation := arguments.word? "--doc"
  release := arguments.has "--release"
  platforms := (arguments.all "--platform").flatten
  verbose := arguments.has "--verbose"
  jobs :=
    match arguments.last? "--jobs" with
    | none => .single
    | some [] => .all
    | some (text :: _) => .given text
  properties := (arguments.all "--set-property").filterMap fun
    | [name, value] => some (name, value)
    | _ => none
  printed := arguments.word? "--print-property"
  manifest := (arguments.word? "--manifest").getD ".manifest"
  targets := arguments.place 0

end QmlScript.Build
