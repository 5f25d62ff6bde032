import TaintFlow.Kind
import TaintFlow.Rule.Declaration

/-!
Rules say which flows are issues: sources that reach sinks, or two labelled flows that reach the
halves of one sink. A rule may ask for transforms on the way and for an effect that reaches the
method. `Rule.ofDeclaration` accepts a declaration or refuses it with the first thing wrong.
-/

namespace TaintFlow

inductive Flow where
  /-- Any of the sources reaches any of the sinks. -/
  | direct (sources sinks : OrdSet KindId)
  /-- For each of two labels, one of its sources reaches the half with that label. -/
  | paired (sources : OrdMap String (OrdSet KindId)) (sinks : OrdSet KindId)
  deriving DecidableEq

/-- How rules are listed. -/
inductive Category where
  | simple
  | transform
  | multiSource
  | exploitability
  deriving DecidableEq

def Category.render : Category → String
  | simple => "simple"
  | transform => "transform"
  | multiSource => "multi-source"
  | exploitability => "exploitability"

structure Rule where
  name : String
  code : Int
  description : String
  flow : Flow
  /-- Kinds that have to be among the transforms of a flow, in this order. -/
  transforms : Option (List KindId)
  effectSources : Option (OrdSet KindId)
  deriving DecidableEq

namespace Rule

def category (r : Rule) : Category :=
  if r.effectSources.isSome then .exploitability
  else match r.flow with
    | .paired _ _ => .multiSource
    | .direct _ _ => if r.transforms.isSome then .transform else .simple

/-- The sources that a label accepts. -/
def labelSources? (r : Rule) (label : String) : Option (OrdSet KindId) :=
  match r.flow with
  | .paired sources _ => sources.get? label
  | .direct _ _ => none

/-- The label of the counterpart. -/
def otherLabel? (r : Rule) (label : String) : Option String :=
  match r.flow with
  | .paired sources _ => sources.keys.find? (· != label)
  | .direct _ _ => none

/-- What a scan of the transforms of a flow leaves of those asked for: each takes the next one off
that it is equal to. -/
def missing (required transforms : List KindId) : List KindId :=
  transforms.foldl
    (fun required transform =>
      if required.head? = some transform then required.tail else required)
    required

/-- Whether the transforms asked for come, in their order, among those of a flow. -/
def acceptsTransforms (r : Rule) (transforms : List KindId) : Bool :=
  r.transforms.all fun required => (missing required transforms).isEmpty

/-- Every kind that the rule mentions, triggered forms apart. -/
def kinds (r : Rule) : OrdSet KindId :=
  let flow := match r.flow with
    | .direct sources sinks => sources ∪ sinks
    | .paired sources sinks => sources.values.foldl (· ∪ ·) ∅ ∪ sinks
  (flow.insertAll (r.transforms.getD [])) ∪ r.effectSources.getD ∅

/-- Interns the names of a list as a set. -/
def internAll (names : List String) : Interning (OrdSet KindId) :=
  return OrdSet.ofList (← Interning.namedAll names)

/-- The halves that a declared sink stands for, as base and label. -/
def expand (rule : String) (labels : List String) :
    PairedSink → Interning (List (String × String))
  | .anyLabel base => return labels.map (base, ·)
  | .labeled base label =>
    if labels.contains label then return [(base, label)] else throw (.unknownLabel rule label)

/-- Whether halves are two with one base and different labels. -/
def isPair (halves : OrdSet (String × String)) : Bool :=
  halves.size == 2 && (halves.map Prod.fst).size == 1 && (halves.map Prod.snd).size == 2

def pairedFlow (rule : String) (multiSources : OrdMap String (List String))
    (sinks : List PairedSink) : Interning Flow := do
  if multiSources.size ≠ 2 then throw (.labelCount rule multiSources.size)
  let sources ← multiSources.entries.mapM fun (label, names) => do
    if names.isEmpty then throw (.malformedRule rule (.labelWithoutSources label))
    return (label, ← internAll names)
  let halves := OrdSet.ofList (← sinks.mapM (expand rule multiSources.keys)).flatten
  if !isPair halves then throw (.partialSinkCount rule halves.size)
  let ids ← halves.toList.mapM fun (base, label) => Interning.half base label
  return .paired (OrdMap.ofList (fun _ later => later) sources) (OrdSet.ofList ids)

def directFlow (rule : String) (sources sinks : List String) : Interning Flow := do
  if sources.isEmpty ∨ sinks.isEmpty then throw (.malformedRule rule .emptySourcesOrSinks)
  return .direct (← internAll sources) (← internAll sinks)

def flowOf (d : RuleDeclaration) : Interning Flow := do
  if d.sources.isSome ∧ d.multiSources.isSome then
    throw (.conflictingMembers d.name "sources" "multi_sources")
  if d.sinks.isSome ∧ d.partialSinks.isSome then
    throw (.conflictingMembers d.name "sinks" "partial_sinks")
  match d.sources, d.sinks, d.multiSources, d.partialSinks with
  | some sources, some sinks, none, none => directFlow d.name sources sinks
  | none, none, some sources, some sinks => pairedFlow d.name sources sinks
  | none, none, some _, none => throw (.malformedRule d.name .partialSinksMissing)
  | none, none, none, some _ => throw (.malformedRule d.name .multiSourcesMissing)
  | _, _, _, _ => throw (.malformedRule d.name .noFlow)

/-- An optional list, which may not be empty. -/
def nonEmpty (rule : String) (defect : RuleDefect) :
    Option (List String) → Except ConfigError (Option (List String))
  | some [] => throw (.malformedRule rule defect)
  | names => return names

/-- Accepts a declaration, interning its kinds and the triggered forms of its halves. -/
def ofDeclaration (d : RuleDeclaration) : Interning Rule := do
  let flow ← flowOf d
  let transforms ← (← nonEmpty d.name .emptyTransforms d.transforms).mapM Interning.namedAll
  let effectSources ← (← nonEmpty d.name .emptyEffectSources d.effectSources).mapM internAll
  match flow with
  | .paired _ sinks => sinks.toList.forM (Interning.trigger · d.code)
  | .direct _ _ => pure ()
  return {
    name := d.name
    code := d.code
    description := d.description
    flow
    transforms
    effectSources }

end Rule

end TaintFlow
