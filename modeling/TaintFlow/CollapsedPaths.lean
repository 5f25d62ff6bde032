import TaintFlow.OrdSet
import TaintFlow.Port

/-!
Thinning out a set of paths: where more than a limit of distinct paths extend one path, they are
replaced by it, the longest such paths first.
-/

namespace TaintFlow

namespace CollapsedPaths

/-- The distinct replacements that extend the first `depth` segments of `path`. -/
def extending (replacements : OrdMap Path Path) (depth : Nat) (path : Path) : OrdSet Path :=
  OrdSet.ofList
    (replacements.values.filter fun r => depth < r.length && r.take depth == path.take depth)

/-- Cuts replacements to `depth` segments wherever more than `limit` distinct ones extend the same
path of that length. -/
def cutAt (limit : Nat) (replacements : OrdMap Path Path) (depth : Nat) : OrdMap Path Path :=
  replacements.mapValues fun _ r =>
    if depth < r.length ∧ limit < (extending replacements depth r).size then r.take depth else r

def longest (paths : OrdSet Path) : Nat := (paths.toList.map List.length).foldl max 0

end CollapsedPaths

/-- The replacement of every path of the set. -/
def collapsePaths (paths : OrdSet Path) (limit : Nat) : OrdMap Path Path :=
  (List.range (CollapsedPaths.longest paths)).reverse.foldl (CollapsedPaths.cutAt limit)
    (paths.elements.mapValues fun path _ => path)

end TaintFlow
