import TaintFlow.Issue
import TaintFlow.Observation
import TaintFlow.Program
import TaintFlow.RuleSet
import TaintFlow.Stash

/-!
Matching what reached sinks against the rules. An ordinary sink is matched at once, and so is a
triggered one, whose other half was met before. The halves of paired flows meet in a stash. A half
that only parameters reach, at a call where the other half is met, becomes a triggered sink at those
parameters.
-/

namespace TaintFlow

/-- What matching depends on. -/
structure Matcher where
  rules : RuleSet
  kinds : KindTable
  maxTransformLength : Nat

/-- A rule with the sources that met it. -/
structure Hit where
  rule : Rule
  sources : List (KindId × FrameInfo)

/-- A half of a paired flow: the label of the rule that was met, its counterpart, and the sources
that met it. -/
structure HalfHit where
  rule : Rule
  label : String
  other : String
  sources : FrameSet

/-- An issue, or what may become one. -/
inductive Finding where
  | issue (issue : Issue)
  | deferred (issue : DeferredIssue)
  deriving DecidableEq

/-- What the observations of one method come to. -/
structure Matched where
  findings : List Finding
  /-- The triggered sinks at parameters of the method. -/
  triggered : List (Port × Frame × FrameInfo)
  deriving DecidableEq

namespace Matched

instance : Inhabited Matched := ⟨⟨[], []⟩⟩

def issues (m : Matched) : List Issue :=
  m.findings.filterMap fun
    | .issue i => some i
    | .deferred _ => none

def deferred (m : Matched) : List DeferredIssue :=
  m.findings.filterMap fun
    | .issue _ => none
    | .deferred d => some d

end Matched

namespace Matcher

variable (m : Matcher)

/-- Whether the transforms of a source and then those of the observed sink suit a rule. -/
def suits (rule : Rule) (source : Frame) (o : Observation) : Bool :=
  rule.acceptsTransforms (source.transforms ++ o.sink.transforms)

/-- The sources of an observation that meet a rule with one of the accepted kinds. -/
def meeting (rule : Rule) (accepted : OrdSet KindId) (o : Observation) : FrameSet :=
  OrdMap.filter (fun f _ => f.kind?.any accepted.contains && suits rule f o) o.sources

/-- The rules about ordinary sinks, each with a source that meets it. -/
def directHits (o : Observation) (sink : KindId) : List Hit :=
  o.sources.kinds.flatMap fun (kind, f, info) =>
    ((m.rules.rulesFor kind sink).filter fun rule => suits rule f o).map fun rule =>
      ⟨rule, [(kind, info)]⟩

/-- The sources that meet the missing half of a triggered sink. -/
def triggeredHits (o : Observation) (half : Half) (code : Int) : List Hit :=
  match m.rules.get? code with
  | none => []
  | some rule =>
    ((meeting rule ((rule.labelSources? half.label).getD ∅) o).kinds).map fun (kind, _, info) =>
      ⟨rule, [(kind, info)]⟩

/-- The halves of paired flows that an observation meets. -/
def halfHits (o : Observation) (sink : KindId) (half : Half) : List HalfHit :=
  (m.rules.rulesForHalf sink).filterMap fun rule => do
    let accepted ← rule.labelSources? half.label
    let other ← rule.otherLabel? half.label
    let sources := meeting rule accepted o
    if OrdMap.isEmpty sources then none
    else some { rule, label := half.label, other, sources }

/-- Puts a half into the stash; a hit if its counterpart waits there. -/
def meetHalf (site : CallSite) (h : HalfHit) (stash : Stash) : List Hit × Stash :=
  match stash.fulfill h.rule.code site h.label h.other h.sources with
  | (none, stash) => ([], stash)
  | (some (own, other), stash) =>
    ([⟨h.rule, (own.kinds ++ other.kinds).map fun (kind, _, info) => (kind, info)⟩], stash)

/-- What a list of steps yields, each step changing the stash for the next one. -/
def inTurn {α β : Type} (step : α → Stash → List β × Stash) : List α → Stash → List β × Stash
  | [], stash => ([], stash)
  | a :: as, stash =>
    let (first, stash) := step a stash
    let (others, stash) := inTurn step as stash
    (first ++ others, stash)

/-- The half that the observed sink is. -/
def half? (o : Observation) : Option (KindId × Half) :=
  o.sink.kind?.bind fun sink => (m.kinds.half? sink).map (sink, ·)

/-- The hits of an observation. -/
def hits (o : Observation) (stash : Stash) : List Hit × Stash :=
  match o.sink.kind? with
  | none => ([], stash)
  | some sink =>
    match m.kinds.get? sink with
    | some (.triggered half code) => (m.triggeredHits o half code, stash)
    | some (.half half) => inTurn (meetHalf o.site) (m.halfHits o sink half) stash
    | _ => (m.directHits o sink, stash)

/-- The issue of a hit. Its trace goes through the traces of the sources and on to the sink. -/
def issue (method : Method) (o : Observation) (h : Hit) : Issue where
  ruleCode := h.rule.code
  ruleName := h.rule.name
  sourceKinds := OrdSet.ofList (h.sources.map fun s => m.kinds.name s.1)
  sinkKind := (o.sink.kind?.map m.kinds.baseName).getD ""
  method := method.name
  position := o.site.position
  line := method.lineOf o.site.position
  callee := o.callee
  traces := OrdSet.ofList [(h.sources.flatMap fun s => s.2.trace) ++ o.info.trace]
  features := h.sources.foldl (fun features s => features ∪ s.2.features) o.info.features

/-- What a hit comes to: an issue, deferred if the rule asks for an effect. -/
def finding (method : Method) (o : Observation) (h : Hit) : Finding :=
  let issue := m.issue method o h
  match h.rule.effectSources with
  | some effectSources => .deferred { method := method.id, effectSources, issue }
  | none => .issue issue

/-- The findings of an observation. -/
def findings (method : Method) (o : Observation) (stash : Stash) : List Finding × Stash :=
  let (hits, stash) := m.hits o stash
  (hits.map (m.finding method o), stash)

/-- The labels that some observation meets, by rule code and call. -/
def metLabels (os : List Observation) : OrdSet (Int × CallSite × String) :=
  OrdSet.ofList <| os.flatMap fun o =>
    match m.half? o with
    | some (sink, half) => (m.halfHits o sink half).map fun h => (h.rule.code, o.site, h.label)
    | none => []

/-- The triggered sinks at the parameters that reach a half whose counterpart is met. -/
def triggeredSinks (met : OrdSet (Int × CallSite × String)) (o : Observation) :
    List (Port × Frame × FrameInfo) :=
  match m.half? o with
  | none => []
  | some (sink, half) =>
    (m.rules.rulesForHalf sink).flatMap fun rule =>
      if (rule.otherLabel? half.label).any fun other => met.contains (rule.code, o.site, other) then
        ((m.kinds.findTriggered? sink rule.code).map fun triggered =>
          o.atParameters (.kind triggered) m.maxTransformLength).getD []
      else []

/-- Matches the observations of one method. Halves that wait at its calls from before are
forgotten. -/
def check (method : Method) (os : List Observation) (stash : Stash) : Matched × Stash :=
  let (findings, stash) := inTurn (m.findings method) os (stash.clear method.id)
  ({ findings, triggered := os.flatMap (m.triggeredSinks (m.metLabels os)) }, stash)

end Matcher

end TaintFlow
