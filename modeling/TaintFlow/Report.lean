import TaintFlow.Analysis
import TaintFlow.Json.Printer

/-!
The report of an analysis: its issues, how many there are for every rule, and what kept the analysis
from being complete. It is written as JSON here, and in other forms by the modules below.
-/

namespace TaintFlow

structure Report where
  /-- When the report was made, in seconds of the epoch. -/
  timestamp : String
  /-- The document that holds the program. -/
  program : String
  /-- The number of rules checked. -/
  rules : Nat
  analyzed : Nat
  pending : Nat
  issues : List Issue
  conditions : List Condition
  deriving DecidableEq

namespace Report

def version : String := "0.1.0"

def ofResult (timestamp program : String) (rules : Nat) (r : Analysis.Result) : Report where
  timestamp := timestamp
  program := program
  rules := rules
  analyzed := r.analyzed
  pending := r.pending
  issues := r.issues
  conditions := r.conditions

/-- Whether nothing kept the analysis from being complete. -/
def isComplete (r : Report) : Bool := r.conditions.isEmpty

/-- The issues of one rule. -/
structure RuleCount where
  code : Int
  name : String
  issues : Nat
  deriving DecidableEq

/-- The rules that have issues, by code. -/
def ruleCounts (r : Report) : List RuleCount :=
  (r.issues.foldl
    (fun (counts : OrdMap Int RuleCount) i =>
      counts.update i.ruleCode ⟨i.ruleCode, i.ruleName, 0⟩ fun c => { c with issues := c.issues + 1 })
    ∅).values

/-- Where an issue is: its line, or else the position of its call. -/
def location (i : Issue) : String :=
  match i.line with
  | some line => i.method ++ ":" ++ toString line
  | none => i.method ++ "@" ++ toString i.position

/-! ### JSON -/

def stepJson (s : Step) : Json :=
  .obj [("method", .str s.method), ("position", .nat s.position), ("callee", .str s.callee),
    ("port", .str s.port)]

def traceJson (t : Trace) : Json := .arr (t.map stepJson)

def issueJson (i : Issue) : Json :=
  .obj [("rule_code", .int i.ruleCode), ("rule_name", .str i.ruleName),
    ("source_kinds", .strings i.sourceKinds.toList), ("sink_kind", .str i.sinkKind),
    ("method", .str i.method), ("position", .nat i.position),
    ("line", Json.ofOption Json.nat i.line), ("callee", .str i.callee),
    ("traces", .arr (i.traces.toList.map traceJson)), ("features", .strings i.features.toList)]

def conditionJson (c : Condition) : Json :=
  let (name, methods) := match c with
    | .budgetExceeded methods => ("budget_exceeded", methods)
    | .iterationLimit methods => ("iteration_limit", methods)
  .obj [("condition", .str name), ("methods", .strings methods)]

def ruleCountJson (c : RuleCount) : Json :=
  .obj [("code", .int c.code), ("name", .str c.name), ("issues", .nat c.issues)]

def encode (r : Report) : Json :=
  .obj [
    ("metadata", .obj [("version", .str version), ("timestamp", .str r.timestamp),
      ("program", .str r.program), ("rules", .nat r.rules), ("methods_analyzed", .nat r.analyzed),
      ("pending_partials", .nat r.pending)]),
    ("issues", .arr (r.issues.map issueJson)),
    ("summary", .obj [("rules", .arr (r.ruleCounts.map ruleCountJson)),
      ("total", .nat r.issues.length)]),
    ("conditions", .arr (r.conditions.map conditionJson))]

/-- The report as JSON with one entry a line. -/
def toJson (r : Report) : String := r.encode.pretty ""

end Report

end TaintFlow
