import TaintFlow.Call
import TaintFlow.Program

/-!
Walking the body of a method. Both arms of a branch start from the same state, and their ends are
joined. A loop starts from its head, the join of the state before it with the ends of its body; the
body is walked until it adds nothing to the head, at most a given number of times. On its way a walk
gathers what is observed at calls, what is returned, and the join of the states in which the method
is left.
-/

namespace TaintFlow

/-- What the walk of a body depends on. -/
structure Walk where
  method : Method
  heuristics : Heuristics
  /-- What is known about the callee with a name. -/
  summaries : String → Callee

namespace Walk

/-- What a walk gathers. -/
structure Gathered where
  observations : Observations
  returned : TaintTree
  /-- The join of the states at the exits, if any was met. -/
  exit : Option State
  deriving DecidableEq

instance : EmptyCollection Gathered := ⟨⟨∅, ∅, none⟩⟩

instance : Inhabited Gathered := ⟨∅⟩

variable (w : Walk)

/-- The state at entry: every parameter holds its own frame, and the declared sources are joined
into the parameters. -/
def entry : State :=
  let depth := w.heuristics.maxFieldDepth
  let location := Location.parameter w.method.id
  let bindParameter (s : State) (p : String × Nat) : State :=
    let own := TaintTree.leaf (FrameSet.singleton (Frame.ofArgument p.2 []) ∅)
    (s.bind p.1 (OrdSet.ofList [location p.2])).writeAt (location p.2) [] own true depth
  let seed (s : State) (port : Port) (frames : FrameSet) : State :=
    match port.root with
    | .argument index =>
      if index < w.method.parameters.length then
        s.writeAt (location index) (port.path.normalize depth) (.leaf frames) false depth
      else s
    | .result => s
  let bound := w.method.parameters.zipIdx.foldl bindParameter ∅
  (w.method.declared.getD ∅).parameterSources.entries.foldl (fun s e => seed s e.1 e.2) bound

/-- The state after an instruction, and what is observed at it. -/
def apply (position : Nat) (instruction : Instruction) (s : State) : State × List Observation :=
  let depth := w.heuristics.maxFieldDepth
  match instruction with
  | .fresh dest =>
    (s.bind dest (OrdSet.ofList [Location.instruction w.method.id position]), [])
  | .move dest src => (s.bind dest (s.read src), [])
  | .fieldRead dest base field => (s.bind dest ((s.read base).map (·.field field depth)), [])
  | .fieldWrite base field src =>
    (s.writeAll (s.read base) [field] (s.readRegister src depth) true depth, [])
  | .call callee args result =>
    let call : Call := ⟨w.method.name, ⟨w.method.id, position⟩, callee, args.map s.read⟩
    call.run w.heuristics (w.summaries callee) result s

/-- Records a state in which the method is left. -/
def leaveIn (s : State) (g : Gathered) : Gathered :=
  { g with exit := some (g.exit.elim s (State.join · s w.heuristics.maxFieldDepth)) }

/-- Records a returned value. -/
def returnValue (value : Option String) (s : State) (g : Gathered) : Gathered :=
  let depth := w.heuristics.maxFieldDepth
  match value with
  | some register => { g with returned := g.returned.join (s.readRegister register depth) depth }
  | none => g

/-- The state where the arms of a branch meet; none if neither gets there. -/
def meet (taken skipped : Option State) : Option State :=
  match taken, skipped with
  | some s, some t => some (s.join t w.heuristics.maxFieldDepth)
  | some s, none => some s
  | none, t => t

/-- The head of a loop after some passes over its body, fewer if a pass adds nothing. -/
def iterate (pass : State → Gathered → Option State × Gathered) :
    Nat → State → Gathered → State × Gathered
  | 0, head, g => (head, g)
  | passes + 1, head, g =>
    let depth := w.heuristics.maxFieldDepth
    match pass head g with
    | (none, g) => (head, g)
    | (some stop, g) =>
      if stop.le head depth then (head.join stop depth, g)
      else iterate pass passes (head.join stop depth) g

/-- Walks a block from a state. There is no state after it if all its paths leave the method. -/
def walk : Body → State → Gathered → Option State × Gathered
  | .done, s, g => (some s, g)
  | .run place instruction rest, s, g =>
    let (s, observed) := w.apply place.position instruction s
    walk rest s { g with observations := g.observations.addAll observed }
  | .leave _ value _, s, g => (none, w.leaveIn s (w.returnValue value s g))
  | .branch _ taken skipped rest, s, g =>
    let (taken, g) := walk taken s g
    let (skipped, g) := walk skipped s g
    match w.meet taken skipped with
    | some s => walk rest s g
    | none => (none, g)
  | .loop _ body rest, s, g =>
    let (s, g) := w.iterate (walk body) w.heuristics.maxLoopIterations s g
    walk rest s g

/-- All that the method's body gathers. Its end is an exit too. -/
def gather (body : Body) : Gathered :=
  match w.walk body w.entry ∅ with
  | (some s, g) => w.leaveIn s g
  | (none, g) => g

end Walk

end TaintFlow
