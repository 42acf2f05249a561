import QmlScript.Commands

/-!
# The command line

The first word is the path of a command: its name says which one, and its directory is that of the
compiler. What the command changes is written back when it ends.
-/

namespace QmlScript

partial def loadEntries (entries : Array IO.FS.DirEntry) : IO FileTree := do
  let mut loaded : List (String × FileTree) := []
  for entry in entries do
    try
      let tree ←
        if ← entry.path.isDir then loadEntries (← entry.path.readDir)
        else pure (FileTree.file (← IO.FS.readFile entry.path))
      loaded := FileTree.setEntry entry.fileName tree loaded
    catch _ => pure ()
  return .dir loaded

def saveChanges (before after : FileTree) : IO Unit := do
  for (path, text) in FileTree.changes before after do
    let directory := Path.directory path
    if directory ≠ "" then IO.FS.createDirAll directory
    IO.FS.writeFile path text

def runWords (words : List String) : IO UInt32 := do
  match words with
  | [] =>
    IO.eprintln "usage: the path of a command and its words"
    return 2
  | program :: words =>
    match Tool.ofName? (Path.name program) with
    | none =>
      IO.eprintln (program ++ ": no such command")
      return 2
    | some tool =>
      let tree ← loadEntries (← (← IO.currentDir).readDir)
      let (result, after) := tool.start program words { tree }
      saveChanges tree after.tree
      for line in after.output do IO.println line
      for line in after.log do IO.eprintln line
      match result with
      | .ok code => return code.toUInt32
      | .error (.failure e) =>
        IO.eprintln e.message
        return 1
      | .error _ => return 1

end QmlScript

def main (words : List String) : IO UInt32 := QmlScript.runWords words
