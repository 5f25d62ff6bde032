import TaintFlow.Json.Decode
import TaintFlow.OrdMap

/-!
Rules as they are declared in documents.
-/

namespace TaintFlow

/-- A sink of a rule that needs two flows: a base that takes every label, or a base with one. -/
inductive PairedSink where
  | anyLabel (base : String)
  | labeled (base label : String)
  deriving DecidableEq

structure RuleDeclaration where
  name : String
  code : Int
  description : String
  sources : Option (List String)
  sinks : Option (List String)
  transforms : Option (List String)
  /-- The sources of each label. -/
  multiSources : Option (OrdMap String (List String))
  partialSinks : Option (List PairedSink)
  effectSources : Option (List String)
  deriving DecidableEq

def PairedSink.decode : Json → Decode PairedSink
  | .str base => return .anyLabel base
  | v => do
    let ms ← v.asObject
    ms.refuseRepeated ["kind", "label"]
    return .labeled (← Json.needed (← ms.take? "kind" Json.asString))
      (← Json.needed (← ms.take? "label" Json.asString))

namespace RuleDeclaration

def memberNames : List String :=
  ["name", "code", "description", "sources", "sinks", "transforms", "multi_sources",
    "partial_sinks", "effect_sources"]

def decodeMultiSources (v : Json) : Decode (OrdMap String (List String)) := do
  let entries ← (← v.asObject).mapM fun m => do return (m.1, ← m.2.asStrings)
  return OrdMap.ofList (fun _ later => later) entries

def decode (v : Json) : Decode RuleDeclaration := do
  let ms ← v.asRecord memberNames
  ms.allowOnly memberNames
  return {
    name := ← Json.needed (← ms.take? "name" Json.asString)
    code := ← Json.needed (← ms.take? "code" Json.asInt64)
    description := (← ms.take? "description" Json.asString).getD ""
    sources := ← ms.takeNullable? "sources" Json.asStrings
    sinks := ← ms.takeNullable? "sinks" Json.asStrings
    transforms := ← ms.takeNullable? "transforms" Json.asStrings
    multiSources := ← ms.takeNullable? "multi_sources" decodeMultiSources
    partialSinks := ← ms.takeNullable? "partial_sinks" (Json.asArray PairedSink.decode)
    effectSources := ← ms.takeNullable? "effect_sources" Json.asStrings }

end RuleDeclaration

end TaintFlow
