import TaintFlow.Report

/-!
The report as a Markdown document: a table of the run, the conditions if there are any, the issues
of every rule in a table, and a section for every issue.
-/

namespace TaintFlow

namespace Report

/-- The lines of a text, each with its line end. -/
def lines (ls : List String) : String := String.join (ls.map (· ++ "\n"))

def markdownHead (r : Report) : List String :=
  ["# Taint-Sentinel Report", "", "| | |", "|---|---|", "| Version | " ++ version ++ " |",
    "| Program | `" ++ r.program ++ "` |", "| Rules checked | " ++ toString r.rules ++ " |",
    "| Methods analyzed | " ++ toString r.analyzed ++ " |",
    "| Issues | " ++ toString r.issues.length ++ " |", ""]

def markdownConditions (r : Report) : List String :=
  if r.isComplete then []
  else "> **Analysis incomplete**" :: r.conditions.map (fun c => "> - " ++ c.message) ++ [""]

def markdownCount (c : RuleCount) : String :=
  "| " ++ toString c.code ++ " | " ++ c.name ++ " | " ++ toString c.issues ++ " |"

def markdownSummary (r : Report) : List String :=
  ["## Summary", ""] ++
    if r.issues.isEmpty then ["No issues found."]
    else ["| Code | Rule | Issues |", "|---|---|---|"] ++ r.ruleCounts.map markdownCount

/-- The section of the issue with a number. -/
def markdownIssue (number : Nat) (i : Issue) : List String :=
  let features := ", ".intercalate i.features.toList
  ["", "## " ++ toString number ++ ". [" ++ toString i.ruleCode ++ "] " ++ i.ruleName, "",
    "- **Location:** `" ++ location i ++ "`", "- **Call:** `" ++ i.callee ++ "`",
    "- **Flow:** " ++ ", ".intercalate i.sourceKinds.toList ++ " -> " ++ i.sinkKind] ++
    (if features.isEmpty then [] else ["- **Features:** " ++ features]) ++
    ["", "```text"] ++ ((i.primaryTrace?.getD []).map Step.render) ++ ["```"]

/-- The report as a Markdown document. -/
def toMarkdown (r : Report) : String :=
  lines (r.markdownHead ++ r.markdownConditions ++ r.markdownSummary ++
    r.issues.zipIdx.flatMap fun (i, index) => markdownIssue (index + 1) i)

end Report

end TaintFlow
