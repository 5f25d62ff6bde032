import TaintFlow.Report
import TaintFlow.Text.Style

/-!
The report as it is shown on a terminal, styled or plain: the issues one after another, the
conditions, and a summary with the issues of every rule.
-/

namespace TaintFlow

namespace Report

/-- A line across the page. -/
def separator (c : Char) : String := "".pushn c 60

/-- The lines of the issue with a number. -/
def terminalIssue (paint : Style → String → String) (number : Nat) (i : Issue) : List String :=
  let trace := match i.primaryTrace? with
    | some steps => ["", "   " ++ paint .yellow "Trace:"] ++
        steps.map fun s => "   " ++ paint .bright s.render
    | none => []
  let features :=
    if i.features.isEmpty then []
    else ["   " ++ paint .dim "Features:" ++ " " ++ ", ".intercalate i.features.toList]
  ["",
    paint Style.cyan.bold ("#" ++ toString number) ++ " " ++
      paint .yellow ("[" ++ toString i.ruleCode ++ "]") ++ " " ++
      paint Style.white.bold i.ruleName,
    "   " ++ paint .dim "Location:" ++ " " ++ paint .blue (location i),
    "   " ++ paint .dim "Flow:" ++ " " ++
      paint .red (", ".intercalate i.sourceKinds.toList) ++ " " ++ paint .dim "->" ++ " " ++
      paint .magenta i.sinkKind,
    "   " ++ paint .dim "Call:" ++ " " ++ paint .cyan i.callee] ++
    trace ++ features ++ [paint .dim (separator '-')]

/-- The text shown where there are no issues. -/
def noIssues : String := "[+] No issues found."

/-- The lines of the issues and conditions. -/
def terminalBody (paint : Style → String → String) (r : Report) : List String :=
  let issues :=
    if r.issues.isEmpty then ["", paint Style.green.bold noIssues]
    else
      ["", paint Style.red.bold "[!] Taint Flow Issues:", paint .cyan (separator '=')] ++
        r.issues.zipIdx.flatMap fun (i, index) => terminalIssue paint (index + 1) i
  let conditions :=
    if r.isComplete then []
    else
      ["", paint Style.yellow.bold "[~] Analysis incomplete:"] ++
        r.conditions.map fun c => "   " ++ paint .yellow c.message
  issues ++ conditions

/-- The lines of the summary. -/
def terminalSummary (paint : Style → String → String) (r : Report) : List String :=
  let count (c : RuleCount) : String :=
    "    " ++ paint .yellow ("[" ++ toString c.code ++ "]") ++ " " ++ c.name ++ " " ++
      paint .red ("x" ++ toString c.issues)
  let total :=
    if r.issues.isEmpty then paint Style.green.bold noIssues
    else
      paint Style.red.bold ("[!] Total: " ++ toString r.issues.length ++ " issue(s) found")
  paint .strong ("[*] Summary: " ++ toString r.rules ++ " rule(s) checked | " ++
    toString r.analyzed ++ " method(s) analyzed") :: r.ruleCounts.map count ++ [total]

/-- The report as it is shown on a terminal. -/
def toTerminal (styled : Bool) (r : Report) : String :=
  let paint := Style.paint styled
  String.join ((r.terminalBody paint ++ ["", paint .cyan (separator '=')] ++
    r.terminalSummary paint).map (· ++ "\n"))

end Report

end TaintFlow
