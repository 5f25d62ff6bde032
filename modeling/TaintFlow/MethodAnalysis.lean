import TaintFlow.CollapsedPaths
import TaintFlow.MethodAnalysis.Walk

/-!
The analysis of one method, given what is known about its callees. Parameters start with frames of
their own, so that the model of the method can be read off what its body gathers: a parameter's
frame that is returned or held by a parameter at exit is a propagation, one that reaches a sink is a
sink of the method, and a kind that a call brought is a generation.
-/

namespace TaintFlow

structure MethodAnalysis where
  model : Model
  /-- One observation for every sink that something reached. -/
  observations : List Observation
  deriving DecidableEq

namespace MethodAnalysis

/-- What the propagations of a parameter to an output have in common; they differ in the input path
below the parameter. -/
structure Route where
  parameter : Nat
  output : Port
  transforms : List KindId
  sanitizers : OrdSet KindId
  deriving DecidableEq

instance : LinearOrd Route :=
  .onKey (fun r => (r.parameter, r.output, r.transforms, r.sanitizers))
    fun a b h => by cases a; cases b; simp_all

/-- The input paths of a route, with their features. -/
abbrev Inputs := OrdMap Path (OrdSet String)

/-- The frames of a tree at the ports below a root. -/
def framesBelow (root : Root) (t : TaintTree) : List (Port × Frame × FrameInfo) :=
  t.nodes.flatMap fun (path, frames) => frames.entries.map fun e => (⟨root, path⟩, e.1, e.2)

/-- Whether a frame at a port is what the port holds at entry. -/
def isInitial (port : Port) (f : Frame) : Bool :=
  match port.root with
  | .argument index => f == Frame.ofArgument index port.path
  | .result => false

/-- What the parameters hold at exit, apart from what they hold at entry. Kinds without a trace were
declared at the parameter. -/
def heldAtExit (w : Walk) (exit : State) : List (Port × Frame × FrameInfo) :=
  (List.range w.method.parameters.length).flatMap fun index =>
    let tree := (exit.tree? (Location.parameter w.method.id index).origin).getD ∅
    (framesBelow (.argument index) tree).filter fun (port, f, info) =>
      if f.isArgument then !isInitial port f else !info.trace.isEmpty

/-- All that callers get back, by port. -/
def handedBack (w : Walk) (g : Walk.Gathered) : List (Port × Frame × FrameInfo) :=
  framesBelow .result g.returned ++ (g.exit.map (heldAtExit w)).getD []

/-- The routes of parameters that are handed back. -/
def routes (handed : List (Port × Frame × FrameInfo)) : OrdMap Route Inputs :=
  let entries := handed.filterMap fun (output, f, info) =>
    match f.label with
    | .kind _ => none
    | .argument index path => some ((⟨index, output, f.transforms, f.sanitizers⟩ : Route), path, info)
  entries.foldl (fun rs (route, path, info) =>
    rs.update route ∅ fun inputs => inputs.update path ∅ (· ∪ info.features)) ∅

/-- Thins out the input paths of a route and marks those that stand for longer ones. -/
def collapseInputs (limit : Nat) (inputs : Inputs) : Inputs :=
  let replacements := collapsePaths (OrdSet.ofKeys inputs) limit
  OrdMap.ofList (· ∪ ·) <| inputs.entries.map fun (path, features) =>
    let r := replacements.getD path path
    (r, if r = path then features else features.insert FrameInfo.viaCollapse)

/-- The propagations of a route. -/
def propagations (limit : Nat) (route : Route) (inputs : Inputs) : List Propagation :=
  (collapseInputs limit inputs).entries.map fun (path, features) =>
    { input := ⟨.argument route.parameter, path⟩
      output := route.output
      transforms := route.transforms
      sanitizers := route.sanitizers
      aliasing := false
      features }

/-- The model read off what the body gathers. -/
def infer (w : Walk) (g : Walk.Gathered) : Model :=
  let handed := handedBack w g
  let limit := w.heuristics.maxTransformLength
  { generations := Model.ofFrames (handed.filter fun (_, f, _) => !f.isArgument)
    parameterSources := ∅
    sinks := Model.ofFrames (g.observations.values.flatMap fun o => o.atParameters o.sink.label limit)
    propagations := OrdSet.ofList <| (routes handed).entries.flatMap fun (route, inputs) =>
      propagations w.heuristics.maxInputPathLeaves route inputs
    effectSources := ∅ }

/-- Analyzes a method. One without a body yields nothing. -/
def run (w : Walk) : MethodAnalysis :=
  match w.method.body with
  | none => ⟨∅, []⟩
  | some body =>
    let g := w.gather body
    ⟨infer w g, g.observations.values⟩

end MethodAnalysis

end TaintFlow
