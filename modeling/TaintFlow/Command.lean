import TaintFlow.Command.Arguments
import TaintFlow.Loading
import TaintFlow.Report.Markdown
import TaintFlow.Report.Terminal

/-!
Running commands. What a command prints and writes is a function of its arguments and of the files
that it can see.
-/

namespace TaintFlow

/-- What a command comes to. -/
structure Outcome where
  exit : Nat
  stdout : String
  /-- The lines for the user that are not part of the output. -/
  notes : List String
  /-- A file to be written: its path and text. -/
  file : Option (String × String)
  deriving DecidableEq

/-- What the commands run in. -/
structure Surroundings where
  files : Files
  /-- Whether terminal output is styled. -/
  styled : Bool
  /-- The time in seconds of the epoch. -/
  now : String

/-- The run of an analysis that a command makes. -/
def Analysis.run (a : Analysis) : Analysis.Result := a.runAlong a.swift

namespace Outcome

def print (text : String) : Outcome := ⟨0, text, [], none⟩

/-- A command that failed. -/
def failed (what : String) : Outcome := ⟨1, "", ["Error: " ++ what], none⟩

/-- A command line that was not accepted. -/
def misused (reason : String) : Outcome := ⟨2, "", ["error: " ++ reason], none⟩

end Outcome

namespace Command

/-- The files that a command reads, those of its model directory apart. -/
def inputs : Command → List String
  | .analyze o => o.rules ++ o.program :: o.heuristics.toList
  | .rules paths => paths
  | .version => []

/-- The directory whose model files a command reads. -/
def modelDirectory? : Command → Option String
  | .analyze o => o.models
  | _ => none

/-- Everything that an analysis needs, and the warnings of its rules. -/
def load (files : Files) (o : AnalyzeOptions) : Loading (Analysis × List String) := do
  let rules ← Loading.rules files o.rules
  let program ← Loading.program files o.program
  let entries ← (o.models.map (Loading.models files)).getD (pure [])
  let program ← Loading.accept (program.addModels entries)
  let heuristics ← (o.heuristics.map (Loading.heuristics files)).getD (pure .default)
  let kinds ← get
  let warnings := (rules.unusedKinds kinds program.declaredKinds).map (RuleSet.unusedWarning kinds)
  return (⟨program, rules, kinds, heuristics⟩, warnings)

/-- Whether the options select a rule. -/
def selects (o : AnalyzeOptions) (r : Rule) : Bool :=
  (o.only.isEmpty || o.only.contains r.code) && !o.exclude.contains r.code

/-- The report of an analysis with the selected rules. -/
def report (s : Surroundings) (o : AnalyzeOptions) (a : Analysis) : Report :=
  let rules := a.rules.retain (selects o)
  .ofResult s.now o.program rules.size ({ a with rules }).run

/-- Analyzes a program and reports in the form asked for. -/
def analyzeProgram (s : Surroundings) (o : AnalyzeOptions) : Outcome :=
  match (load s.files o).run.run ∅ with
  | (.error e, _) => .failed e.message
  | (.ok (a, warnings), _) =>
    let r := report s o a
    let deliver (text : String) : Outcome :=
      match o.output with
      | some path => ⟨0, "", warnings ++ ["[+] Report saved to: " ++ path], some (path, text)⟩
      | none => ⟨0, text ++ "\n", warnings, none⟩
    match o.format with
    | .json => deliver r.toJson
    | .markdown => deliver r.toMarkdown
    | .terminal => ⟨0, r.toTerminal s.styled, warnings, none⟩

/-- The lines that describe a rule. -/
def ruleLines (paint : Style → String → String) (r : Rule) : List String :=
  ("  " ++ paint Style.cyan.bold (toString r.code) ++ " " ++ paint .white r.name ++ " [" ++
      paint .yellow r.category.render ++ "]") ::
    if r.description.isEmpty then [] else ["     " ++ paint .dim r.description]

/-- Lists the rules of some files. -/
def listRules (s : Surroundings) (paths : List String) : Outcome :=
  match (Loading.rules s.files paths).run.run ∅ with
  | (.error e, _) => .failed e.message
  | (.ok loaded, _) =>
    let paint := Style.paint s.styled
    let ls := [paint Style.green.bold "[*] Rules:", paint .cyan (Report.separator '-')] ++
      loaded.rules.flatMap (ruleLines paint) ++ ["", toString loaded.size ++ " rule(s) loaded"]
    .print (String.join (ls.map (· ++ "\n")))

def run (s : Surroundings) : Command → Outcome
  | .analyze o => analyzeProgram s o
  | .rules paths => listRules s paths
  | .version =>
    let paint := Style.paint s.styled
    .print (paint .green "Taint-Sentinel version:" ++ " " ++ paint .yellow Report.version ++ "\n")

def usage : String :=
  "Usage: taint-sentinel analyze --program FILE --rules FILE... [OPTIONS]\n" ++
  "       taint-sentinel rules --rules FILE...\n" ++
  "       taint-sentinel version\n"

/-- Reads a command line and runs the command. -/
def runLine (s : Surroundings) (arguments : List String) : Outcome :=
  match Arguments.parse arguments with
  | .ok c => c.run s
  | .error (.version name) => .print (name ++ " " ++ Report.version ++ "\n")
  | .error .help => .print usage
  | .error (.wrong reason) => .misused reason

end Command

end TaintFlow
