import TaintFlow.Rule

/-!
Rules with unique codes, in the order of adding, and indexes from codes and kinds to places in that
order. Every change keeps the indexes in step with the list.
-/

namespace TaintFlow

structure RuleSet where
  rules : List Rule
  byCode : OrdMap Int Nat
  /-- The places of rules by source and sink. -/
  bySourceSink : OrdMap (KindId × KindId) (List Nat)
  /-- The places of rules by half. -/
  byHalf : OrdMap KindId (List Nat)

namespace RuleSet

instance : EmptyCollection RuleSet := ⟨⟨[], ∅, ∅, ∅⟩⟩

instance : Inhabited RuleSet := ⟨∅⟩

/-- Adds a place under a key. -/
def addPlace {κ : Type} [LinearOrd κ] (place : Nat) (m : OrdMap κ (List Nat)) (k : κ) :
    OrdMap κ (List Nat) :=
  m.update k [] (· ++ [place])

/-- The pairs of source and sink for which a rule is looked up. -/
def sourceSinkKeys (r : Rule) : List (KindId × KindId) :=
  match r.flow with
  | .direct sources sinks =>
    sources.toList.flatMap fun source => sinks.toList.map fun sink => (source, sink)
  | .paired _ _ => []

/-- The halves for which a rule is looked up. -/
def halfKeys (r : Rule) : List KindId :=
  match r.flow with
  | .direct _ _ => []
  | .paired _ sinks => sinks.toList

/-- Puts a rule at the end and into the indexes. -/
def push (s : RuleSet) (r : Rule) : RuleSet :=
  let place := s.rules.length
  { rules := s.rules ++ [r]
    byCode := s.byCode.insert r.code place
    bySourceSink := (sourceSinkKeys r).foldl (addPlace place) s.bySourceSink
    byHalf := (halfKeys r).foldl (addPlace place) s.byHalf }

/-- The rule with a code. -/
def get? (s : RuleSet) (code : Int) : Option Rule := (s.byCode.get? code).bind (s.rules[·]?)

/-- Adds a rule with a new code. -/
def add (s : RuleSet) (r : Rule) : Except ConfigError RuleSet :=
  match s.get? r.code with
  | some first => throw (.duplicateCode r.code first.name r.name)
  | none => return s.push r

/-- Keeps the rules that satisfy a test. -/
def retain (s : RuleSet) (keep : Rule → Bool) : RuleSet := (s.rules.filter keep).foldl push ∅

/-- The rules at some places. -/
def fetch (s : RuleSet) (places : Option (List Nat)) : List Rule :=
  (places.getD []).filterMap (s.rules[·]?)

/-- The rules for a source that reaches a sink. -/
def rulesFor (s : RuleSet) (source sink : KindId) : List Rule :=
  s.fetch (s.bySourceSink.get? (source, sink))

/-- The rules that have a half among their sinks. -/
def rulesForHalf (s : RuleSet) (sink : KindId) : List Rule := s.fetch (s.byHalf.get? sink)

def size (s : RuleSet) : Nat := s.rules.length

/-- Every kind that some rule mentions. -/
def kinds (s : RuleSet) : OrdSet KindId := s.rules.foldl (fun ks r => ks ∪ r.kinds) ∅

/-- The kinds in use that no rule mentions. A triggered kind is not meant to be mentioned. -/
def unusedKinds (s : RuleSet) (t : KindTable) (used : OrdSet KindId) : List KindId :=
  used.toList.filter fun k => !s.kinds.contains k && (t.triggered? k).isNone

def unusedWarning (t : KindTable) (k : KindId) : String :=
  "Kind `" ++ t.name k ++ "` is not used in any rule"

/-- Accepts and adds declarations one after another. -/
def addAll (s : RuleSet) (ds : List RuleDeclaration) : Interning RuleSet :=
  ds.foldlM (fun s d => do s.add (← Rule.ofDeclaration d)) s

end RuleSet

end TaintFlow
