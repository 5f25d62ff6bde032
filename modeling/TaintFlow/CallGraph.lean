import TaintFlow.Program

/-!
Which methods call which, with the position of the first call. Methods that reach each other form a
component; `levels` puts each component of a list above those that it calls. A search may find the
components in any order that has callees first; `CallGraph.components` is one such list.
-/

namespace TaintFlow

/-- The callees of every method, each with the position of the first call to it. -/
structure CallGraph where
  calls : OrdMap MethodId (OrdMap MethodId Nat)
  deriving DecidableEq

/-- The methods of a component in the order of their ids. -/
abbrev Component := List MethodId

namespace CallGraph

/-- Adds a call unless an earlier one has the same callee. -/
def addCall (p : Program) (m : OrdMap MethodId Nat) (call : Nat × String) : OrdMap MethodId Nat :=
  match p.lookup call.2 with
  | some callee => m.alter callee.id fun first => some (first.getD call.1)
  | none => m

def build (p : Program) : CallGraph :=
  ⟨OrdMap.ofList (fun _ later => later)
    (p.methods.map fun m => (m.id, m.calls.foldl (addCall p) ∅))⟩

def methods (g : CallGraph) : List MethodId := g.calls.keys

/-- The methods that a method calls, in the order of their ids, each with the position of the first
call. -/
def callees (g : CallGraph) (m : MethodId) : List (MethodId × Nat) := (g.calls.getD m ∅).entries

/-- What can be reached from `frontier` in some rounds of calls, beside what is `seen`. -/
def reachFrom (g : CallGraph) : Nat → OrdSet MethodId → List MethodId → OrdSet MethodId
  | 0, seen, _ => seen
  | rounds + 1, seen, frontier =>
    let next := OrdSet.ofList
      ((frontier.flatMap fun m => (g.callees m).map Prod.fst).filter fun m => !seen.contains m)
    if next.isEmpty then seen else reachFrom g rounds (seen ∪ next) next.toList

/-- The methods that can be reached by zero or more calls. -/
def reach (g : CallGraph) (m : MethodId) : OrdSet MethodId :=
  g.reachFrom g.calls.size (OrdSet.ofList [m]) [m]

/-- The methods, each with what it reaches. -/
def reaches (g : CallGraph) : OrdMap MethodId (OrdSet MethodId) :=
  OrdMap.ofList (fun _ later => later) (g.methods.map fun m => (m, g.reach m))

/-- The component of a method: what it reaches and is reached from. -/
def componentOf (reaches : OrdMap MethodId (OrdSet MethodId)) (m : MethodId) : Component :=
  ((reaches.getD m ∅).toList).filter fun k => (reaches.getD k ∅).contains m

/-- The components, callees before callers: a caller reaches more methods than a callee outside its
component. -/
def components (g : CallGraph) : List Component :=
  let reaches := g.reaches
  let keyed := g.methods.map fun m => ((reaches.getD m ∅).size, componentOf reaches m)
  (OrdSet.ofList keyed).toList.map Prod.snd

/-- Whether every call that leaves a component goes to an earlier one. -/
def calleesFirst (g : CallGraph) : List MethodId → List Component → Bool
  | _, [] => true
  | earlier, c :: rest =>
    (c.all fun m => (g.callees m).all fun call => earlier.contains call.1 || c.contains call.1) &&
      g.calleesFirst (earlier ++ c) rest

/-- Whether a method of the component can reach itself by a call. -/
def isRecursive (g : CallGraph) (c : Component) : Bool :=
  c.length > 1 || c.any fun m => (g.callees m).any (·.1 == m)

/-- The level of a component: one above the highest level among its callees that have one. -/
def levelAbove (g : CallGraph) (levelOf : OrdMap MethodId Nat) (c : Component) : Nat :=
  let levels := c.flatMap fun m => (g.callees m).filterMap fun call => levelOf.get? call.1
  (levels.map (· + 1)).foldl max 0

/-- The components with their levels, in the order of the list. -/
def leveled (g : CallGraph) : OrdMap MethodId Nat → List Component → List (Component × Nat)
  | _, [] => []
  | levelOf, c :: rest =>
    let level := g.levelAbove levelOf c
    (c, level) :: g.leveled (c.foldl (fun ls m => ls.insert m level) levelOf) rest

/-- The components by level, the lowest level first. -/
def levels (g : CallGraph) (components : List Component) : List (List Component) :=
  let leveled := g.leveled ∅ components
  let height := (leveled.map fun c => c.2 + 1).foldl max 0
  (List.range height).map fun level => (leveled.filter fun c => c.2 == level).map Prod.fst

end CallGraph

end TaintFlow
