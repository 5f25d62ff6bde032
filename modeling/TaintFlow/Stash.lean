import TaintFlow.CallSite
import TaintFlow.Frame

/-!
Halves of paired flows that wait for their counterpart. A half is a label of a rule that was met at
a call; when the other label is met at the same call, both halves leave the stash.
-/

namespace TaintFlow

/-- The sources of the waiting halves, by rule code, call and label. -/
structure Stash where
  halves : OrdMap (Int × CallSite × String) FrameSet
  deriving DecidableEq

namespace Stash

instance : EmptyCollection Stash := ⟨⟨∅⟩⟩

instance : Inhabited Stash := ⟨∅⟩

/-- Meets a half. If its counterpart waits, both leave the stash with all their sources, the half
first; if not, the half waits. -/
def fulfill (s : Stash) (rule : Int) (site : CallSite) (label other : String)
    (sources : FrameSet) : Option (FrameSet × FrameSet) × Stash :=
  let own := (rule, site, label)
  let counterpart := (rule, site, other)
  match s.halves.get? counterpart with
  | some waiting =>
    let rest := s.halves.erase counterpart
    (some (FrameSet.join (rest.getD own ∅) sources, waiting), ⟨rest.erase own⟩)
  | none => (none, ⟨s.halves.update own ∅ (FrameSet.join · sources)⟩)

/-- Drops the halves that wait at the calls of a method. -/
def clear (s : Stash) (method : MethodId) : Stash :=
  ⟨s.halves.filter fun k _ => k.2.1.method ≠ method⟩

/-- The number of waiting halves. -/
def pending (s : Stash) : Nat := s.halves.size

end Stash

end TaintFlow
