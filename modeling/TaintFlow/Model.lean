import TaintFlow.Frame
import TaintFlow.Model.Declaration

/-!
What a method does with taint, as its callers see it: taint that it hands back (generations), taint
seeded on its own parameters, argument paths where taint is used (sinks), copies between ports
(propagations) and effects seeded at the method. Models are declared or inferred, and joined;
`Model.le` says that a join brings nothing new.
-/

namespace TaintFlow

/-- A copy of taint from one port to another. -/
structure Propagation where
  input : Port
  output : Port
  /-- Applied, in order, to every copied frame. -/
  transforms : List KindId
  /-- The source kinds that are not copied. -/
  sanitizers : OrdSet KindId
  /-- Whether the result may hold the very location of the input. -/
  aliasing : Bool
  features : OrdSet String
  deriving DecidableEq

instance : LinearOrd Propagation :=
  .onKey (fun p => (p.input, p.output, p.transforms, p.sanitizers, p.aliasing, p.features))
    fun a b h => by cases a; cases b; simp_all

/-- The copy of a frame, unless its kind is sanitized. Frames of arguments record the sanitizers, for
the kinds that they turn out to stand for. -/
def Propagation.copy (p : Propagation) (limit : Nat) (f : Frame) (info : FrameInfo) :
    Option (Frame × FrameInfo) :=
  let copied := if f.isArgument then f.withSanitizers p.sanitizers else f
  if f.kind?.any p.sanitizers.contains then none
  else some (copied.withTransforms p.transforms limit, info.addFeatures p.features)

/-- Frames by port. -/
abbrev PortFrames := OrdMap Port FrameSet

namespace PortFrames

def add (m : PortFrames) (port : Port) (f : Frame) (info : FrameInfo) : PortFrames :=
  m.update port ∅ (FrameSet.add · f info)

def join (m n : PortFrames) : PortFrames := OrdMap.union FrameSet.join m n

/-- Whether joining `m` into `n` brings no frame and nothing to one. -/
def le (m n : PortFrames) : Bool := m.entries.all fun e => FrameSet.le e.2 (n.getD e.1 ∅)

end PortFrames

structure Model where
  generations : PortFrames
  parameterSources : PortFrames
  sinks : PortFrames
  propagations : OrdSet Propagation
  effectSources : OrdSet KindId
  deriving DecidableEq

namespace Model

instance : EmptyCollection Model := ⟨⟨∅, ∅, ∅, ∅, ∅⟩⟩

instance : Inhabited Model := ⟨∅⟩

def addGeneration (m : Model) (port : Port) (f : Frame) (info : FrameInfo) : Model :=
  { m with generations := PortFrames.add m.generations port f info }

def addParameterSource (m : Model) (port : Port) (f : Frame) (info : FrameInfo) : Model :=
  { m with parameterSources := PortFrames.add m.parameterSources port f info }

def addSink (m : Model) (port : Port) (f : Frame) (info : FrameInfo) : Model :=
  { m with sinks := PortFrames.add m.sinks port f info }

def addPropagation (m : Model) (p : Propagation) : Model :=
  { m with propagations := m.propagations.insert p }

def addEffectSource (m : Model) (kind : KindId) : Model :=
  { m with effectSources := m.effectSources.insert kind }

def isEmpty (m : Model) : Bool :=
  OrdMap.isEmpty m.generations && OrdMap.isEmpty m.parameterSources && OrdMap.isEmpty m.sinks &&
    m.propagations.isEmpty && m.effectSources.isEmpty

def join (m n : Model) : Model where
  generations := PortFrames.join m.generations n.generations
  parameterSources := PortFrames.join m.parameterSources n.parameterSources
  sinks := PortFrames.join m.sinks n.sinks
  propagations := m.propagations ∪ n.propagations
  effectSources := m.effectSources ∪ n.effectSources

/-- Whether joining `m` into `n` brings nothing new. -/
def le (m n : Model) : Bool :=
  PortFrames.le m.generations n.generations &&
    PortFrames.le m.parameterSources n.parameterSources && PortFrames.le m.sinks n.sinks &&
    m.propagations.isSubset n.propagations && m.effectSources.isSubset n.effectSources

/-- The kinds of frames and their transforms. -/
def frameKinds (m : PortFrames) : List KindId :=
  m.values.flatMap fun s => (FrameSet.kinds s).flatMap fun (id, f, _) => id :: f.transforms

/-- Every kind that the model mentions. -/
def kinds (m : Model) : OrdSet KindId :=
  OrdSet.ofList
    (frameKinds m.generations ++ frameKinds m.parameterSources ++ frameKinds m.sinks ++
      (m.propagations.toList.flatMap fun p => p.transforms ++ p.sanitizers.toList) ++
      m.effectSources.toList)

/-- Refuses a port that is no argument. -/
def requireArgument (port : Port) (what : String) : Except ConfigError Unit :=
  match port.root with
  | .argument _ => return ()
  | .result => throw (.invalidPort port.render (.notAnArgument what))

/-- The typed form of a declared source: its port, frame and info. -/
def declaredSource (d : SourceDeclaration) : Interning (Port × Frame × FrameInfo) := do
  return (d.port, .ofKind (← Interning.named d.kind), .ofFeatures d.features)

def declaredParameterSource (d : SourceDeclaration) : Interning (Port × Frame × FrameInfo) := do
  requireArgument d.port "parameter source"
  declaredSource d

def declaredSink (d : SinkDeclaration) : Interning (Port × Frame × FrameInfo) := do
  requireArgument d.port "sink"
  let kind ← match d.label with
    | some label => Interning.half d.kind label
    | none => Interning.named d.kind
  return (d.port, .ofKind kind, .ofFeatures d.features)

def declaredPropagation (d : PropagationDeclaration) : Interning Propagation := do
  requireArgument d.input "propagation input"
  let transforms ← Interning.namedAll d.transforms
  let sanitizers ← Interning.namedAll d.sanitizers
  return {
    input := d.input
    output := d.output
    transforms
    sanitizers := OrdSet.ofList sanitizers
    aliasing := d.aliasing
    features := OrdSet.ofList d.features }

def ofFrames (frames : List (Port × Frame × FrameInfo)) : PortFrames :=
  frames.foldl (fun m (port, f, info) => PortFrames.add m port f info) ∅

/-- Builds the model of a declaration, interning its kinds in the order in which they come. -/
def ofDeclaration (d : ModelDeclaration) : Interning Model := do
  let generations ← d.generations.mapM declaredSource
  let parameterSources ← d.parameterSources.mapM declaredParameterSource
  let sinks ← d.sinks.mapM declaredSink
  let propagations ← d.propagations.mapM declaredPropagation
  let effectSources ← Interning.namedAll d.effectSources
  return {
    generations := ofFrames generations
    parameterSources := ofFrames parameterSources
    sinks := ofFrames sinks
    propagations := OrdSet.ofList propagations
    effectSources := OrdSet.ofList effectSources }

end Model

end TaintFlow
