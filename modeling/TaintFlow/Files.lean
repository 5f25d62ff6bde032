import TaintFlow.OrdMap

/-!
The files that a command can see. `Files` is what is asked of them; a `FileTree` is a set of files
held in memory, in which paths are followed from the root.
-/

namespace TaintFlow

structure Files where
  /-- The text of the file at a path, if there is one and it holds text. -/
  text? : String → Option String
  /-- The paths of the JSON files at or below a path, in the order of their components. -/
  jsonFiles : String → List String

/-- Whether a file of this name is a JSON file: the name ends in `.json` and has something before
it. -/
def Files.isJsonName (name : String) : Bool := name.endsWith ".json" && name != ".json"

/-- Files by the components of their paths. A file that holds no text has no content here. -/
structure FileTree where
  files : OrdMap (List String) (Option String)

namespace FileTree

def empty : FileTree := ⟨∅⟩

instance : EmptyCollection FileTree := ⟨empty⟩

instance : Inhabited FileTree := ⟨∅⟩

/-- The files whose components extend those of a directory, with the rest of their components. -/
def below (t : FileTree) (directory : List String) : List (List String) :=
  t.files.keys.filterMap fun file =>
    if directory.isPrefixOf file then some (file.drop directory.length) else none

/-- The root is a directory, and so is what some file is below. -/
def isDirectory (t : FileTree) (components : List String) : Bool :=
  components.isEmpty || (t.below components).any (!·.isEmpty)

/-- Follows the components of a path. Whatever another component follows has to be a directory. -/
def follow (t : FileTree) (here : List String) : List String → Option (List String)
  | [] => some here
  | c :: rest =>
    if !t.isDirectory here then none
    else if c = "" ∨ c = "." then follow t here rest
    else if c ≠ ".." then follow t (here ++ [c]) rest
    else if here.isEmpty then none
    else follow t here.dropLast rest

/-- The components of what a path leads to, which need not exist. -/
def locate (t : FileTree) (path : String) : Option (List String) :=
  if path.startsWith "/" ∨ path.isEmpty then none else t.follow [] (path.splitOn "/")

def text? (t : FileTree) (path : String) : Option String := do
  (← t.files.get? (← t.locate path))

def jsonFiles (t : FileTree) (path : String) : List String :=
  match t.locate path with
  | none => []
  | some base =>
    ((t.below base).filter fun rest => ((base ++ rest).getLast?).any Files.isJsonName).map fun rest =>
      "/".intercalate (path :: rest)

/-- Puts a file where a path leads, if its directory exists and no directory is there. -/
def write? (t : FileTree) (path text : String) : Option FileTree := do
  let file ← t.locate path
  if t.isDirectory file then none else some ⟨t.files.insert file (some text)⟩

/-- Adds a file by the components of its name, whether or not its directory exists. -/
def add (t : FileTree) (name : String) (content : Option String) : FileTree :=
  ⟨t.files.insert ((name.splitOn "/").filter fun c => c ≠ "" ∧ c ≠ ".") content⟩

def view (t : FileTree) : Files := ⟨t.text?, t.jsonFiles⟩

end FileTree

end TaintFlow
