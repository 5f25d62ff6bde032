import TaintFlow.CallGraph
import TaintFlow.Issue

/-!
Effects spread from the methods that declare them to all methods that these call, directly or not.
`EffectIndex` keeps one shortest chain of calls for every effect and method; an issue of a rule that
asks for an effect stands if a chain leads to its method.
-/

namespace TaintFlow

/-- The chains of calls by which effects reach methods. -/
structure EffectIndex where
  chains : OrdMap KindId (OrdMap MethodId Trace)
  deriving DecidableEq

namespace EffectIndex

/-- The methods that an effect reached so far, and those that it reached in the present round. -/
structure Spread where
  chains : OrdMap MethodId Trace
  frontier : List MethodId

/-- Records that a chain leads to a method, unless one did before. -/
def Spread.reach (s : Spread) (m : MethodId) (chain : Trace) : Spread :=
  if s.chains.contains m then s
  else { chains := s.chains.insert m chain, frontier := s.frontier ++ [m] }

/-- The step of a chain that hands an effect from a caller to a callee. -/
def step (p : Program) (t : KindTable) (effect : KindId) (caller : MethodId)
    (call : MethodId × Nat) : Step :=
  ⟨p.nameOf caller, call.2, p.nameOf call.1, t.name effect⟩

/-- Extends the chain of a method to the methods that it calls. -/
def extend (g : CallGraph) (stepOf : MethodId → MethodId × Nat → Step) (s : Spread)
    (caller : MethodId) : Spread :=
  (g.callees caller).foldl
    (fun s call => s.reach call.1 (s.chains.getD caller [] ++ [stepOf caller call])) s

/-- Spreads from the frontier for some rounds of calls. -/
def spread (g : CallGraph) (stepOf : MethodId → MethodId × Nat → Step) :
    Nat → Spread → OrdMap MethodId Trace
  | 0, s => s.chains
  | rounds + 1, s =>
    let next := s.frontier.foldl (extend g stepOf) ⟨s.chains, []⟩
    if next.frontier.isEmpty then next.chains else spread g stepOf rounds next

/-- The methods that declare an effect. -/
def seeds (p : Program) (effect : KindId) : List MethodId :=
  (p.methods.filter fun m => m.declared.any (·.effectSources.contains effect)).map Method.id

/-- All declared effects. -/
def effects (p : Program) : OrdSet KindId :=
  p.methods.foldl (fun ks m => ks ∪ (m.declared.getD ∅).effectSources) ∅

/-- The chains of one effect; those of its seeds are empty. -/
def chainsOf (p : Program) (g : CallGraph) (t : KindTable) (effect : KindId) :
    OrdMap MethodId Trace :=
  let start := (seeds p effect).foldl (fun s m => s.reach m []) ⟨∅, []⟩
  spread g (step p t effect) p.size start

def build (p : Program) (g : CallGraph) (t : KindTable) : EffectIndex :=
  ⟨(effects p).elements.mapValues fun effect _ => chainsOf p g t effect⟩

/-- A shortest chain by which one of some effects reaches a method. -/
def chain? (e : EffectIndex) (m : MethodId) (effects : OrdSet KindId) : Option Trace :=
  Trace.shortest? (effects.toList.filterMap fun k => (e.chains.get? k).bind (·.get? m))

/-- The issues whose method a required effect reaches, with the chain in front of every trace. -/
def gate (e : EffectIndex) (deferred : List DeferredIssue) : List Issue :=
  deferred.filterMap fun d => (e.chain? d.method d.effectSources).map fun chain =>
    { d.issue with traces := d.issue.traces.map (chain ++ ·) }

end EffectIndex

end TaintFlow
