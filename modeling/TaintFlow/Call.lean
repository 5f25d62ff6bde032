import TaintFlow.Heuristics
import TaintFlow.Model
import TaintFlow.Observation
import TaintFlow.State

/-!
What a call does to the state of its caller. The model of the callee is read with the arguments of
the call in place of its parameters: first what reaches its sinks is observed, then its generations
and propagations are gathered by output, all from the state before the call, and last the outputs
are written. Nothing is known about the effects of an obscure callee, so that all that its arguments
hold is taken to reach its result.
-/

namespace TaintFlow

/-- What is known about a callee. -/
inductive Callee where
  | modeled (model : Model)
  | obscure
  deriving DecidableEq

/-- A call with the locations that its arguments may be. -/
structure Call where
  caller : String
  site : CallSite
  callee : String
  arguments : List AliasSet

/-- The taint that a call hands back, by the root at which it does. -/
abbrev Outputs := OrdMap Root TaintTree

/-- Joins a tree into what is handed back at a port. -/
def Outputs.write (o : Outputs) (port : Port) (tree : TaintTree) (depth : Nat) : Outputs :=
  o.update port.root ∅ (·.write port.path tree false depth)

namespace Call

/-- The locations of the argument at which a port starts. -/
def argument? (c : Call) (root : Root) : Option AliasSet :=
  match root with
  | .argument index => c.arguments[index]?
  | .result => none

/-- The step of a trace that enters the callee at a port. -/
def step (c : Call) (port : Port) : Step := ⟨c.caller, c.site.position, c.callee, port.render⟩

/-- What is observed at a port, at each of its sinks; nothing where nothing reaches the port. -/
def observeAt (h : Heuristics) (c : Call) (s : State) (port : Port) (sinks : FrameSet) :
    List Observation :=
  let port := port.normalize h.maxFieldDepth
  let reaching := ((c.argument? port.root).map fun locations =>
    (s.readAll locations port.path h.maxFieldDepth).collect).getD ∅
  if OrdMap.isEmpty reaching then []
  else
    sinks.entries.map fun (sink, info) =>
      { site := c.site
        callee := c.callee
        port
        sink
        info := info.addStep (c.step port) h.maxTraceLength
        sources := OrdMap.filter (fun f _ => sink.admits f) reaching.sources
        parameters := reaching.arguments }

/-- What is observed at all sinks of the callee. -/
def observe (h : Heuristics) (c : Call) (model : Model) (s : State) : List Observation :=
  model.sinks.entries.flatMap fun (port, sinks) => c.observeAt h s port sinks

/-- Adds the frames generated at a port; their traces start with the call. -/
def generate (h : Heuristics) (c : Call) (o : Outputs) (port : Port) (frames : FrameSet) :
    Outputs :=
  let port := port.normalize h.maxFieldDepth
  o.write port (.leaf (frames.addStep (c.step port) h.maxTraceLength)) h.maxFieldDepth

/-- Adds what a propagation copies. -/
def propagate (h : Heuristics) (c : Call) (s : State) (o : Outputs) (p : Propagation) : Outputs :=
  let input := p.input.normalize h.maxFieldDepth
  match c.argument? input.root with
  | none => o
  | some locations =>
    let copied := (s.readAll locations input.path h.maxFieldDepth).mapFrames
      (FrameSet.mapFrames (p.copy h.maxTransformLength))
    if copied.isEmpty then o
    else o.write (p.output.normalize h.maxFieldDepth) copied h.maxFieldDepth

/-- All that a model hands back, with crowded outputs merged. -/
def outputs (h : Heuristics) (c : Call) (model : Model) (s : State) : Outputs :=
  let generated := model.generations.entries.foldl (fun o e => c.generate h o e.1 e.2) ∅
  let all := model.propagations.toList.foldl (c.propagate h s) generated
  all.mapValues fun _ tree => tree.collapse h.maxOutputPathLeaves

/-- The locations that the result shares with the arguments. -/
def shared (h : Heuristics) (c : Call) (model : Model) : AliasSet :=
  let locations (p : Propagation) : List Location :=
    let input := p.input.normalize h.maxFieldDepth
    if p.aliasing ∧ p.output.normalize h.maxFieldDepth = Port.result then
      ((c.argument? input.root).getD ∅).toList.map fun l =>
        l.fieldPath input.path h.maxFieldDepth
    else []
  OrdSet.ofList (model.propagations.toList.flatMap locations)

/-- Joins what is handed back at an argument into the locations of the argument. -/
def writeArgument (h : Heuristics) (c : Call) (s : State) (root : Root) (tree : TaintTree) :
    State :=
  match c.argument? root with
  | some locations => s.writeAll locations [] tree false h.maxFieldDepth
  | none => s

/-- All that the arguments of a call to an obscure callee hold. -/
def obscured (h : Heuristics) (c : Call) (s : State) : FrameSet :=
  (c.arguments.foldl
    (fun frames locations => frames.join (s.readAll locations [] h.maxFieldDepth).collect)
    (∅ : FrameSet)).addFeature FrameInfo.viaObscure

/-- Binds the result of the call: to its own location, which holds exactly the returned taint, and
to the locations that it shares with the arguments. -/
def bindResult (h : Heuristics) (c : Call) (s : State) (register : String) (returned : TaintTree)
    (shared : AliasSet) : State :=
  let fresh := Location.instruction c.site.method c.site.position
  (s.writeAt fresh [] returned true h.maxFieldDepth).bind register (shared.insert fresh)

/-- The state after the call, and what is observed at it. -/
def run (h : Heuristics) (c : Call) (callee : Callee) (result : Option String) (s : State) :
    State × List Observation :=
  let finish (s : State) (returned : TaintTree) (shared : AliasSet) : State :=
    match result with
    | some register => c.bindResult h s register returned shared
    | none => s
  match callee with
  | .modeled model =>
    let outputs := c.outputs h model s
    let after := outputs.entries.foldl (fun s e => c.writeArgument h s e.1 e.2) s
    (finish after (outputs.getD .result ∅) (c.shared h model), c.observe h model s)
  | .obscure => (finish s (.leaf (c.obscured h s)) ∅, [])

end Call

end TaintFlow
