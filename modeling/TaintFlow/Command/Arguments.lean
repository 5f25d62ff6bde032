/-!
The command line. An option is written `--name value`, `--name=value`, `-n value`, `-nvalue` or
`-n=value`; a value that is an argument of its own may not look like an option. Arguments are read
from left to right, and the first one that is wrong, or asks for the version or for help, decides.
-/

namespace TaintFlow

/-- The forms of a report. -/
inductive Format where
  | terminal
  | json
  | markdown
  deriving DecidableEq

structure AnalyzeOptions where
  program : String
  rules : List String
  models : Option String
  heuristics : Option String
  format : Format
  output : Option String
  /-- The rules to check, by code; all if there are none here. -/
  only : List Int
  /-- The rules not to check. -/
  exclude : List Int
  deriving DecidableEq

/-- What can be asked for. -/
inductive Command where
  | analyze (options : AnalyzeOptions)
  | rules (paths : List String)
  | version
  deriving DecidableEq

/-- Why no command is run. -/
inductive Stop where
  | wrong (reason : String)
  /-- The version of the program, under the name of a command. -/
  | version (name : String)
  | help
  deriving DecidableEq

namespace Arguments

/-- How the values of an option are checked. -/
inductive ValueKind where
  | path
  | format
  | codes
  deriving DecidableEq

/-- An option that a command knows. -/
structure Known where
  name : String
  short : Option Char
  kind : ValueKind
  /-- Whether it may be given more than once. -/
  repeated : Bool
  deriving DecidableEq

/-- The options given so far, with their values. -/
abbrev Given := List (String × String)

def analyzeOptions : List Known :=
  [⟨"program", some 'p', .path, false⟩, ⟨"rules", some 'r', .path, true⟩,
    ⟨"models", some 'm', .path, false⟩, ⟨"heuristics", none, .path, false⟩,
    ⟨"format", some 'f', .format, false⟩, ⟨"output", some 'o', .path, false⟩,
    ⟨"only", none, .codes, true⟩, ⟨"exclude", some 'x', .codes, true⟩]

def rulesOptions : List Known := [⟨"rules", some 'r', .path, true⟩]

def format? : String → Option Format
  | "terminal" => some .terminal
  | "json" => some .json
  | "markdown" => some .markdown
  | _ => none

/-- A run of decimal digits as a number. -/
def natural? (cs : List Char) : Option Nat :=
  if cs.isEmpty ∨ !cs.all Char.isDigit then none
  else some (cs.foldl (fun n c => 10 * n + (c.toNat - '0'.toNat)) 0)

/-- A rule code: an integer of 64 bits with an optional sign. -/
def code? (text : String) : Option Int := do
  let n : Int ← match text.toList with
    | '-' :: cs => do pure (-(Int.ofNat (← natural? cs)))
    | '+' :: cs => do pure (Int.ofNat (← natural? cs))
    | cs => do pure (Int.ofNat (← natural? cs))
  if -Int.pow 2 63 ≤ n ∧ n < Int.pow 2 63 then some n else none

/-- Rule codes separated by commas. -/
def codes? (text : String) : Option (List Int) := (text.splitOn ",").mapM code?

/-- Whether an option takes a value. -/
def isValid (kind : ValueKind) (value : String) : Bool :=
  match kind with
  | .path => !value.isEmpty
  | .format => (format? value).isSome
  | .codes => (codes? value).isSome

/-- Adds an option with its value. -/
def give (given : Given) (k : Known) (value : String) : Except Stop Given :=
  if !isValid k.kind value then throw (.wrong ("invalid value for --" ++ k.name))
  else if !k.repeated && given.any (·.1 == k.name) then
    throw (.wrong ("--" ++ k.name ++ " is given more than once"))
  else return given ++ [(k.name, value)]

/-- Whether an argument may be the value of the option before it. -/
def isValue (argument : String) : Bool := !argument.startsWith "-" || argument == "-"

/-- What an argument is where an option may stand. -/
inductive Shape where
  /-- The mark after which no options come. -/
  | mark
  /-- An option with a name, and the value after `=` if there is one. -/
  | long (name : String) (value : Option String)
  /-- An option with a letter, and the value after it if there is one. -/
  | short (letter : Char) (value : Option String)
  | plain

def shape (argument : String) : Shape :=
  match argument.toList with
  | ['-', '-'] => .mark
  | '-' :: '-' :: cs =>
    let name := String.ofList (cs.takeWhile (· ≠ '='))
    match cs.dropWhile (· ≠ '=') with
    | [] => .long name none
    | _ :: value => .long name (some (String.ofList value))
  | '-' :: letter :: [] => .short letter none
  | '-' :: letter :: '=' :: value => .short letter (some (String.ofList value))
  | '-' :: letter :: value => .short letter (some (String.ofList value))
  | _ => .plain

/-- The meaning of an option: a known one with the value attached to it, if any, or a stop. -/
def known (command : String) (options : List Known) : Shape → Except Stop (Known × Option String)
  | .short 'h' _ => throw .help
  | .short 'V' _ => throw (.version command)
  | .long "help" none => throw .help
  | .long "version" none => throw (.version command)
  | .short letter value =>
    match options.find? (·.short == some letter) with
    | some k => return (k, value)
    | none => throw (.wrong ("unexpected -" ++ String.singleton letter))
  | .long name value =>
    match options.find? (·.name == name) with
    | some k => return (k, value)
    | none => throw (.wrong ("unexpected --" ++ name))
  | .mark => throw (.wrong "unexpected --")
  | .plain => throw (.wrong "unexpected argument")

/-- Reads the options of a command. -/
def options (command : String) (knowns : List Known) : Given → List String → Except Stop Given
  | given, [] => return given
  | given, ["--"] => return given
  | given, [argument] => do
    let (k, value) ← known command knowns (shape argument)
    match value with
    | some value => give given k value
    | none => throw (.wrong ("no value for --" ++ k.name))
  | given, argument :: next :: rest => do
    let (k, value) ← known command knowns (shape argument)
    match value with
    | some value => options command knowns (← give given k value) (next :: rest)
    | none =>
      if isValue next then options command knowns (← give given k next) rest
      else throw (.wrong ("no value for --" ++ k.name))

/-- The values given for an option. -/
def values (given : Given) (name : String) : List String :=
  given.filterMap fun g => if g.1 = name then some g.2 else none

def allCodes (given : Given) (name : String) : List Int :=
  (values given name).flatMap fun v => (codes? v).getD []

/-- The values of an option that has to be given. -/
def required (given : Given) (name : String) : Except Stop (List String) :=
  match values given name with
  | [] => throw (.wrong ("--" ++ name ++ " is required"))
  | vs => return vs

def analyze (given : Given) : Except Stop Command := do
  let programs ← required given "program"
  let rules ← required given "rules"
  return .analyze {
    program := programs.headD ""
    rules
    models := (values given "models").head?
    heuristics := (values given "heuristics").head?
    format := ((values given "format").head?.bind format?).getD .terminal
    output := (values given "output").head?
    only := allCodes given "only"
    exclude := allCodes given "exclude" }

/-- The name of the program. -/
def programName : String := "taint-sentinel"

def commandNames : List String := ["analyze", "rules", "version", "help"]

/-- Reads a command line. -/
def parse : List String → Except Stop Command
  | "analyze" :: rest => do analyze (← options (programName ++ "-analyze") analyzeOptions [] rest)
  | "rules" :: rest => do
    let given ← options (programName ++ "-rules") rulesOptions [] rest
    return .rules (← required given "rules")
  | "version" :: rest => do
    let _ ← options (programName ++ "-version") [] [] rest
    return .version
  | ["help"] => throw .help
  | ["help", name] =>
    if commandNames.contains name then throw .help else throw (.wrong "unexpected command")
  | argument :: _ => do
    let _ ← known programName [] (shape argument)
    throw (.wrong "unexpected argument")
  | [] => throw (.wrong "a command is required")

end Arguments

end TaintFlow
