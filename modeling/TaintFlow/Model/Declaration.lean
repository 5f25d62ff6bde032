import TaintFlow.Json.Decode
import TaintFlow.Port

/-!
Models as they are declared in documents, with kinds as names. Every declaration is decoded from
JSON and encoded again with all its members and with ports in canonical text.
-/

namespace TaintFlow

/-- A kind of source at a port. -/
structure SourceDeclaration where
  kind : String
  port : Port
  features : List String
  deriving DecidableEq

/-- A kind of sink at a port, or with a label one half of it. -/
structure SinkDeclaration where
  kind : String
  port : Port
  label : Option String
  features : List String
  deriving DecidableEq

/-- Taint copied from one port to another. -/
structure PropagationDeclaration where
  input : Port
  output : Port
  transforms : List String
  sanitizers : List String
  /-- Whether the result may hold the very location of the input. -/
  aliasing : Bool
  features : List String
  deriving DecidableEq

structure ModelDeclaration where
  generations : List SourceDeclaration
  parameterSources : List SourceDeclaration
  sinks : List SinkDeclaration
  propagations : List PropagationDeclaration
  effectSources : List String
  deriving DecidableEq

/-- An entry of a model file: a method and a declaration for it. -/
structure MethodModel where
  method : String
  model : ModelDeclaration
  deriving DecidableEq

def Port.decode (v : Json) : Decode Port := do
  match Port.parse (← v.asString) with
  | .ok port => return port
  | .error cause => throw (.refused cause)

def Port.encode (p : Port) : Json := .str p.render

namespace SourceDeclaration

def memberNames : List String := ["kind", "port", "features"]

def decode (v : Json) : Decode SourceDeclaration := do
  let ms ← v.asRecord memberNames
  let features ← ms.take? "features" Json.asStrings
  let kind ← ms.take? "kind" Json.asString
  let port ← ms.take? "port" Port.decode
  return { kind := ← Json.needed kind, port := ← Json.needed port, features := features.getD [] }

def encode (d : SourceDeclaration) : Json :=
  .obj [("kind", .str d.kind), ("port", d.port.encode), ("features", .strings d.features)]

end SourceDeclaration

namespace SinkDeclaration

def memberNames : List String := ["kind", "port", "partial_label", "features"]

def decode (v : Json) : Decode SinkDeclaration := do
  let ms ← v.asRecord memberNames
  let features ← ms.take? "features" Json.asStrings
  let kind ← ms.take? "kind" Json.asString
  let label ← ms.takeNullable? "partial_label" Json.asString
  let port ← ms.take? "port" Port.decode
  return {
    kind := ← Json.needed kind
    port := ← Json.needed port
    label
    features := features.getD [] }

def encode (d : SinkDeclaration) : Json :=
  .obj [("kind", .str d.kind), ("port", d.port.encode),
    ("partial_label", Json.ofOption Json.str d.label), ("features", .strings d.features)]

end SinkDeclaration

namespace PropagationDeclaration

def memberNames : List String :=
  ["input", "output", "transforms", "sanitizers", "alias", "features"]

def decode (v : Json) : Decode PropagationDeclaration := do
  let ms ← v.asRecord memberNames
  let aliasing ← ms.take? "alias" Json.asBool
  let features ← ms.take? "features" Json.asStrings
  let input ← ms.take? "input" Port.decode
  let output ← ms.take? "output" Port.decode
  let sanitizers ← ms.take? "sanitizers" Json.asStrings
  let transforms ← ms.take? "transforms" Json.asStrings
  return {
    input := ← Json.needed input
    output := ← Json.needed output
    transforms := transforms.getD []
    sanitizers := sanitizers.getD []
    aliasing := aliasing.getD false
    features := features.getD [] }

def encode (d : PropagationDeclaration) : Json :=
  .obj [("input", d.input.encode), ("output", d.output.encode),
    ("transforms", .strings d.transforms), ("sanitizers", .strings d.sanitizers),
    ("alias", .bool d.aliasing), ("features", .strings d.features)]

end PropagationDeclaration

namespace ModelDeclaration

def memberNames : List String :=
  ["generations", "parameter_sources", "sinks", "propagations", "effect_sources"]

def ofMembers (ms : Json.Members) : Decode ModelDeclaration := do
  let effectSources ← ms.take? "effect_sources" Json.asStrings
  let generations ← ms.take? "generations" (Json.asArray SourceDeclaration.decode)
  let parameterSources ← ms.take? "parameter_sources" (Json.asArray SourceDeclaration.decode)
  let propagations ← ms.take? "propagations" (Json.asArray PropagationDeclaration.decode)
  let sinks ← ms.take? "sinks" (Json.asArray SinkDeclaration.decode)
  return {
    generations := generations.getD []
    parameterSources := parameterSources.getD []
    sinks := sinks.getD []
    propagations := propagations.getD []
    effectSources := effectSources.getD [] }

def decode (v : Json) : Decode ModelDeclaration := do ofMembers (← v.asRecord memberNames)

def members (d : ModelDeclaration) : Json.Members :=
  [("generations", .arr (d.generations.map SourceDeclaration.encode)),
    ("parameter_sources", .arr (d.parameterSources.map SourceDeclaration.encode)),
    ("sinks", .arr (d.sinks.map SinkDeclaration.encode)),
    ("propagations", .arr (d.propagations.map PropagationDeclaration.encode)),
    ("effect_sources", .strings d.effectSources)]

def encode (d : ModelDeclaration) : Json := .obj d.members

end ModelDeclaration

namespace MethodModel

/-- The members of the declaration stand beside the name of the method, so that an array is no
entry. -/
def decode (v : Json) : Decode MethodModel := do
  let ms ← v.asObject
  ms.refuseRepeated ("method" :: ModelDeclaration.memberNames)
  let method ← Json.needed (← ms.take? "method" Json.asString)
  return { method, model := ← ModelDeclaration.ofMembers ms }

def encode (d : MethodModel) : Json := .obj (("method", .str d.method) :: d.model.members)

end MethodModel

end TaintFlow
