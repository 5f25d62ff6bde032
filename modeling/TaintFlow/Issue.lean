import TaintFlow.CallSite
import TaintFlow.Frame

/-!
Issues: flows that a rule is about. Two issues with the same rule, kinds and call are one issue,
with the traces and features of both; `Issues` keeps one issue for every key.
-/

namespace TaintFlow

structure Issue where
  ruleCode : Int
  ruleName : String
  sourceKinds : OrdSet String
  /-- The kind of the sink, without labels. -/
  sinkKind : String
  /-- The method that holds the call. -/
  method : String
  position : Nat
  line : Option Nat
  callee : String
  /-- The chains of calls that explain the flow. -/
  traces : OrdSet Trace
  features : OrdSet String
  deriving DecidableEq

namespace Issue

/-- The rule, the kinds and the call. -/
abbrev Key := Int × OrdSet String × String × String × Nat

def key (i : Issue) : Key := (i.ruleCode, i.sourceKinds, i.sinkKind, i.method, i.position)

/-- Adds the traces and features of an issue with the same key. -/
def merge (i j : Issue) : Issue :=
  { i with traces := i.traces ∪ j.traces, features := i.features ∪ j.features }

/-- The trace shown for the issue. -/
def primaryTrace? (i : Issue) : Option Trace := Trace.shortest? i.traces.toList

end Issue

/-- One issue for every key, in the order of the keys. -/
abbrev Issues := OrdMap Issue.Key Issue

namespace Issues

/-- Adds an issue, or merges it into the one with its key. -/
def add (is : Issues) (i : Issue) : Issues :=
  is.alter i.key fun own => some (own.elim i (Issue.merge · i))

/-- Whether no issue with the key was added before. -/
def isNew (is : Issues) (i : Issue) : Bool := !OrdMap.contains is i.key

def addAll (is : Issues) (news : List Issue) : Issues := news.foldl add is

end Issues

/-- An issue that stands only if an effect reaches its method. -/
structure DeferredIssue where
  method : MethodId
  effectSources : OrdSet KindId
  issue : Issue
  deriving DecidableEq

end TaintFlow
