import TaintFlow.Effect
import TaintFlow.Matching
import TaintFlow.MethodAnalysis

/-!
The analysis of a whole program. Every method has a summary: its declared model, joined with what is
inferred from its body. Components of the call graph are analyzed callees first; the methods of a
recursive one are analyzed again and again until no summary grows, at most a given number of times.
A summary only ever grows. A component whose turn comes when the time is up is not analyzed: once
its level is done, its methods are taken to be obscure.
-/

namespace TaintFlow

/-- What kept an analysis from being complete. -/
inductive Condition where
  | budgetExceeded (methods : List String)
  | iterationLimit (methods : List String)
  deriving DecidableEq

/-- The text shown for a condition. -/
def Condition.message : Condition → String
  | budgetExceeded methods =>
    "time budget exceeded, " ++ toString methods.length ++ " methods not analyzed"
  | iterationLimit methods => "iteration limit reached for " ++ ", ".intercalate methods

/-- All that an analysis starts from. -/
structure Analysis where
  program : Program
  rules : RuleSet
  kinds : KindTable
  heuristics : Heuristics

namespace Analysis

/-- What an analysis comes to. -/
structure Result where
  /-- The issues in the order of their keys. -/
  issues : List Issue
  /-- The summaries by the names of their methods. -/
  models : OrdMap String Model
  conditions : List Condition
  /-- The number of methods analyzed. -/
  analyzed : Nat
  /-- The number of halves whose counterpart was never met. -/
  pending : Nat
  deriving DecidableEq

/-- What a run meets that its input does not settle: which list of components is found, and how many
whole seconds have gone by when the turn of a component comes. -/
structure Course where
  found : List (List MethodId)
  elapsed : Component → Nat

/-- The components that are found, each in the order of its ids. -/
def Course.components (w : Course) : List Component := w.found.map fun c => (OrdSet.ofList c).toList

/-- What an analysis knows on its way. -/
structure Progress where
  /-- The summary of every method that has one. -/
  summaries : OrdMap MethodId Model
  stash : Stash
  /-- What the last analysis of every method came to. -/
  matched : OrdMap MethodId Matched
  deriving DecidableEq

variable (a : Analysis)

def matcher : Matcher := ⟨a.rules, a.kinds, a.heuristics.maxTransformLength⟩

/-- A method without a declared model starts from an empty summary if it has a body, and has none
if it has no body. -/
def initialSummary (m : Method) : Option Model :=
  m.declared.or (if m.hasBody then some ∅ else none)

def start : Progress where
  summaries := OrdMap.ofList (fun _ later => later)
    (a.program.methods.filterMap fun m => (initialSummary m).map (m.id, ·))
  stash := ∅
  matched := ∅

/-- What is known about the callee with a name. -/
def callee (p : Progress) (name : String) : Callee :=
  match (a.program.lookup name).bind fun m => p.summaries.get? m.id with
  | some model => .modeled model
  | none => .obscure

/-- Joins a model into the summary of a method, unless it brings nothing new. Also whether it
did. -/
def Progress.grow (p : Progress) (m : MethodId) (inferred : Model) : Bool × Progress :=
  let summary := p.summaries.getD m ∅
  if inferred.le summary then (false, p)
  else (true, { p with summaries := p.summaries.insert m (summary.join inferred) })

/-- A model with the sinks that matching adds to it. -/
def withTriggered (model : Model) (matched : Matched) : Model :=
  matched.triggered.foldl (fun model (port, f, info) => model.addSink port f info) model

/-- Analyzes a method with the present summaries. Also whether its own summary grew. -/
def visit (m : Method) (p : Progress) : Bool × Progress :=
  let r := MethodAnalysis.run ⟨m, a.heuristics, a.callee p⟩
  let (matched, stash) := a.matcher.check m r.observations p.stash
  let (grown, p) := p.grow m.id (withTriggered r.model matched)
  (grown, { p with stash, matched := p.matched.insert m.id matched })

/-- Analyzes some methods one after another. Also whether any summary grew. -/
def pass : List Method → Progress → Bool × Progress
  | [], p => (false, p)
  | m :: ms, p =>
    let (grown, p) := a.visit m p
    let (later, p) := pass ms p
    (grown || later, p)

/-- A pass over some methods, and as long as a summary grows further ones, at most a given number.
Also whether a summary grew in the last one. -/
def stabilize (ms : List Method) : Nat → Progress → Bool × Progress
  | 0, p => a.pass ms p
  | further + 1, p =>
    match a.pass ms p with
    | (true, p) => stabilize ms further p
    | (false, p) => (false, p)

/-- The methods of a component that have a body. -/
def bodies (c : Component) : List Method :=
  (c.filterMap a.program.method?).filter Method.hasBody

/-- Analyzes a component. Also the methods whose summaries were still growing when the passes came
to their end. -/
def analyzeComponent (g : CallGraph) (c : Component) (p : Progress) :
    List Condition × Progress :=
  let ms := a.bodies c
  if g.isRecursive c then
    match a.stabilize ms (a.heuristics.maxIterations - 1) p with
    | (true, p) => ([.iterationLimit (ms.map Method.name)], p)
    | (false, p) => ([], p)
  else ([], (a.pass ms p).2)

/-- Analyzes components one after another. -/
def analyzeAll (g : CallGraph) : List Component → Progress → List Condition × Progress
  | [], p => ([], p)
  | c :: cs, p =>
    let (conditions, p) := a.analyzeComponent g c p
    let (others, p) := analyzeAll g cs p
    (conditions ++ others, p)

/-- The summary of a method that is not analyzed: every parameter may reach the result. -/
def obscureModel (m : Method) : Model :=
  (List.range m.parameters.length).foldl
    (fun model index => model.addPropagation {
      input := .argument index
      output := .result
      transforms := []
      sanitizers := ∅
      aliasing := false
      features := OrdSet.ofList [FrameInfo.viaObscure] })
    (m.declared.getD ∅)

/-- Takes a method to be obscure. -/
def skip (m : Method) (p : Progress) : Progress :=
  { p with summaries := p.summaries.insert m.id (obscureModel m) }

def skipAll (ms : List Method) (p : Progress) : Progress := ms.foldl (fun p m => skip m p) p

/-- Whether the time is up when the turn of a component comes. -/
def isLate (w : Course) (c : Component) : Bool := a.heuristics.timeIsUp (w.elapsed c)

/-- The components of a level that are analyzed. -/
def inTime (w : Course) (level : List Component) : List Component := level.filter (!a.isLate w ·)

/-- The methods of a level that are skipped. -/
def missed (w : Course) (level : List Component) : List Method :=
  (level.filter (a.isLate w)).flatMap a.bodies

/-- Analyzes level after level. -/
def analyzeLevels (g : CallGraph) (w : Course) :
    List (List Component) → Progress → List Condition × Progress
  | [], p => ([], p)
  | level :: levels, p =>
    let (conditions, p) := a.analyzeAll g (a.inTime w level) p
    let (others, p) := analyzeLevels g w levels (skipAll (a.missed w level) p)
    (conditions ++ others, p)

/-- The condition that some methods were skipped. -/
def budgetConditions (ms : List Method) : List Condition :=
  let ids := OrdSet.ofList (ms.map Method.id)
  if ids.isEmpty then [] else [.budgetExceeded (ids.toList.map a.program.nameOf)]

/-- The issues found, one for every key, in the order of the keys. -/
def issues (g : CallGraph) (p : Progress) : Issues :=
  let all := p.matched.values
  let effects := EffectIndex.build a.program g a.kinds
  ((∅ : Issues).addAll (all.flatMap Matched.issues)).addAll
    (effects.gate (all.flatMap Matched.deferred))

/-- The run that takes a course. -/
def runAlong (w : Course) : Result :=
  let g := CallGraph.build a.program
  let levels := g.levels w.components
  let (conditions, p) := a.analyzeLevels g w levels a.start
  { issues := (a.issues g p).values
    models := OrdMap.ofList (fun _ later => later)
      (p.summaries.entries.map fun e => (a.program.nameOf e.1, e.2))
    conditions := conditions ++ a.budgetConditions (levels.flatMap (a.missed w))
    analyzed := p.matched.size
    pending := p.stash.pending }

/-- A course on which no time goes by, with the components as `CallGraph.components` lists them. -/
def swift : Course := ⟨(CallGraph.build a.program).components, fun _ => 0⟩

end Analysis

end TaintFlow
