/-!
What is refused while rules, models, programs and heuristics are read, as causes. The wording of a
refusal is `ConfigError.message`.
-/

namespace TaintFlow

/-- Why a text is no port, or no port for its place. -/
inductive PortDefect where
  | grammar
  | indexRange
  /-- The named part of a model has to speak of an argument. -/
  | notAnArgument (what : String)
  deriving DecidableEq

/-- Why a rule is malformed. -/
inductive RuleDefect where
  | emptySourcesOrSinks
  | partialSinksMissing
  | multiSourcesMissing
  | noFlow
  | emptyTransforms
  | emptyEffectSources
  | labelWithoutSources (label : String)
  deriving DecidableEq

/-- Why heuristics are refused. -/
inductive HeuristicsDefect where
  /-- The named member has to be at least one. -/
  | zero (member : String)
  deriving DecidableEq

/-- The cause for which a configuration is refused. -/
inductive ConfigError where
  | malformedRule (rule : String) (defect : RuleDefect)
  | partialSinkCount (rule : String) (found : Nat)
  | labelCount (rule : String) (found : Nat)
  | unknownLabel (rule label : String)
  | conflictingMembers (rule first second : String)
  | duplicateCode (code : Int) (first second : String)
  | invalidKind (name : String)
  | invalidPort (port : String) (defect : PortDefect)
  | duplicateMethod (method : String)
  /-- A refusal inside the declaration of a method. -/
  | inMethod (method : String) (cause : ConfigError)
  | invalidHeuristics (defect : HeuristicsDefect)
  deriving DecidableEq

def PortDefect.message : PortDefect → String
  | grammar => "expected `Return` or `Argument(n)` followed by `.field` segments"
  | indexRange => "argument index out of range"
  | notAnArgument what => "a " ++ what ++ " must be rooted at an argument"

def RuleDefect.message : RuleDefect → String
  | emptySourcesOrSinks => "`sources` and `sinks` must not be empty"
  | partialSinksMissing => "`multi_sources` requires `partial_sinks`"
  | multiSourcesMissing => "`partial_sinks` requires `multi_sources`"
  | noFlow => "expected `sources` with `sinks`, or `multi_sources` with `partial_sinks`"
  | emptyTransforms => "`transforms` must not be empty"
  | emptyEffectSources => "`effect_sources` must not be empty"
  | labelWithoutSources label => "label `" ++ label ++ "` has no sources"

def HeuristicsDefect.message : HeuristicsDefect → String
  | zero member => "`" ++ member ++ "` must be at least 1"

/-- The text shown for a refusal. -/
def ConfigError.message : ConfigError → String
  | malformedRule rule defect => "rule `" ++ rule ++ "`: " ++ defect.message
  | partialSinkCount rule found =>
    "rule `" ++ rule ++ "` must declare exactly 2 partial sinks sharing one base kind, found " ++
      toString found
  | labelCount rule found =>
    "rule `" ++ rule ++ "` must declare exactly 2 labels in `multi_sources`, found " ++
      toString found
  | unknownLabel rule label => "rule `" ++ rule ++ "` references unknown label `" ++ label ++ "`"
  | conflictingMembers rule first second =>
    "rule `" ++ rule ++ "` mixes `" ++ first ++ "` with `" ++ second ++ "`"
  | duplicateCode code first second =>
    "duplicate rule code " ++ toString code ++ " (`" ++ first ++ "` and `" ++ second ++ "`)"
  | invalidKind name => "invalid kind name `" ++ name ++ "`"
  | invalidPort port defect => "invalid port `" ++ port ++ "`: " ++ defect.message
  | duplicateMethod method => "method `" ++ method ++ "`: declared more than once"
  | inMethod method cause => "method `" ++ method ++ "`: " ++ cause.message
  | invalidHeuristics defect => "invalid heuristics: " ++ defect.message

end TaintFlow
