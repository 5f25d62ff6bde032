import TaintFlow.Files
import TaintFlow.Heuristics
import TaintFlow.Json.Reader
import TaintFlow.Program
import TaintFlow.RuleSet

/-!
Loading rules, programs, models and heuristics from files. The first file that cannot be read, does
not hold the document expected of it or is refused ends the loading.
-/

namespace TaintFlow

/-- Why loading ends. -/
inductive LoadError where
  | unreadable (path : String)
  /-- The file does not hold JSON of the shape expected. -/
  | malformed (path : String)
  | refused (cause : ConfigError)
  deriving DecidableEq

/-- The text shown for a failure to load. -/
def LoadError.message : LoadError → String
  | unreadable path => "failed to read " ++ path
  | malformed path => "failed to parse " ++ path
  | refused cause => cause.message

/-- Loading interns kinds on its way. -/
abbrev Loading := ExceptT LoadError (StateM KindTable)

namespace Loading

/-- Goes on with what is accepted. -/
def accept {α : Type} (m : Interning α) : Loading α :=
  ExceptT.adapt LoadError.refused m

/-- Reads a document of an expected shape. -/
def read {α : Type} (files : Files) (path : String) (decode : Json → Decode α) :
    Except LoadError α := do
  let some text := files.text? path | throw (.unreadable path)
  let some value := Json.parse? text | throw (.malformed path)
  match decode value with
  | .ok document => return document
  | .error _ => throw (.malformed path)

/-- Adds the rules of a file. -/
def addRules (files : Files) (s : RuleSet) (path : String) : Loading RuleSet := do
  let ds ← read files path (Json.asArray RuleDeclaration.decode)
  accept (s.addAll ds)

/-- The rules of some files, in the order of the list. -/
def rules (files : Files) (paths : List String) : Loading RuleSet :=
  paths.foldlM (addRules files) ∅

def program (files : Files) (path : String) : Loading Program := do
  let document ← read files path ProgramDocument.decode
  accept (Program.ofDocument document)

/-- The entries of all model files of a directory. -/
def models (files : Files) (directory : String) : Except LoadError (List MethodModel) := do
  let entries ← (files.jsonFiles directory).mapM fun path =>
    read files path (Json.asArray MethodModel.decode)
  return entries.flatten

def heuristics (files : Files) (path : String) : Except LoadError Heuristics := do
  let h ← read files path Heuristics.decode
  match h.validate with
  | .ok h => return h
  | .error cause => throw (.refused cause)

end Loading

end TaintFlow
