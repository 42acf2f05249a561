import QmlScript.Codec
import QmlScript.FileTree

/-!
# Caches

A cache keeps values in files of one directory. The first line of a file is the key that its value was saved
under, and the rest is the value as the codec of the cache writes it.
-/

namespace QmlScript

structure Cache (α : Type) where
  directory : String := ".cache"
  codec : Codec α

namespace Cache

variable {α : Type}

/-- The file in which a name has its value. -/
def path (cache : Cache α) (name : String) : String := Path.join cache.directory name

/-- The files with the directory of the cache, if it can be made. -/
def prepare (cache : Cache α) (tree : FileTree) : FileTree :=
  match tree.makeDirectory cache.directory with
  | .ok tree => tree
  | .error _ => tree

def fileText (cache : Cache α) (key : String) (value : α) : String := key ++ "\n" ++ cache.codec.encode value

/-- Save a value: the file of the name gets the key and the value. -/
def keep (cache : Cache α) (tree : FileTree) (name key : String) (value : α) : Except FileError FileTree :=
  tree.write (cache.path name) (cache.fileText key value)

/-- The value of a file text whose first line is the key, apart from blanks around it. -/
def restore? (cache : Cache α) (key text : String) : Option α := do
  let (line, rest) ← Text.cutFirst? '\n' text.toList
  if Text.trimBy Text.isPlainBlank line = key.toList then cache.codec.decode? (String.ofList rest) else none

/-- The value that the file of the name has, if it was saved under the key. -/
def read? (cache : Cache α) (tree : FileTree) (name key : String) : Option α :=
  match tree.readExact (cache.path name) with
  | .ok text => cache.restore? key text
  | .error _ => none

end Cache
end QmlScript
