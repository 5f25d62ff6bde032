import TaintFlow.Memory
import TaintFlow.TaintTree

/-!
The state at one program point: which locations a register may hold, and one taint tree per origin.
The taint of a field location is in the tree of its origin, at its path. States are joined where
control flow merges, and `State.le` says that a join brings nothing new.
-/

namespace TaintFlow

structure State where
  aliases : OrdMap String AliasSet
  taint : OrdMap Origin TaintTree
  deriving DecidableEq

namespace State

instance : EmptyCollection State := ⟨⟨∅, ∅⟩⟩

instance : Inhabited State := ⟨∅⟩

/-- The locations that a register may hold; none if it was never bound. -/
def read (s : State) (register : String) : AliasSet := s.aliases.getD register ∅

def isBound (s : State) (register : String) : Bool := s.aliases.contains register

/-- Makes a register hold exactly some locations. -/
def bind (s : State) (register : String) (locations : AliasSet) : State :=
  { s with aliases := s.aliases.insert register locations }

/-- Adds locations to those that a register may hold. -/
def bindMore (s : State) (register : String) (locations : AliasSet) : State :=
  { s with aliases := s.aliases.update register ∅ (· ∪ locations) }

/-- The tree of an origin. -/
def tree? (s : State) (origin : Origin) : Option TaintTree := s.taint.get? origin

/-- The taint readable at a path below a location. -/
def readAt (s : State) (l : Location) (path : Path) (depth : Nat) : TaintTree :=
  match s.tree? l.origin with
  | some tree => tree.subtree (l.path ++ path) depth
  | none => ∅

/-- The join of the taint readable at a path below some locations. -/
def readAll (s : State) (locations : AliasSet) (path : Path) (depth : Nat) : TaintTree :=
  locations.toList.foldl (fun tree l => tree.join (s.readAt l path depth) depth) ∅

/-- The taint readable through a register. -/
def readRegister (s : State) (register : String) (depth : Nat) : TaintTree :=
  s.readAll (s.read register) [] depth

/-- Writes a tree at a path below a location. -/
def writeAt (s : State) (l : Location) (path : Path) (tree : TaintTree) (strong : Bool)
    (depth : Nat) : State :=
  { s with taint := s.taint.update l.origin ∅ (·.write (l.path ++ path) tree strong depth) }

/-- Writes a tree at a path below some locations. Only the write to a single location can be
strong. -/
def writeAll (s : State) (locations : AliasSet) (path : Path) (tree : TaintTree) (strong : Bool)
    (depth : Nat) : State :=
  locations.toList.foldl
    (fun s l => s.writeAt l path tree (strong && locations.size == 1) depth) s

/-- The join at a merge of control flow. -/
def join (s t : State) (depth : Nat) : State where
  aliases := OrdMap.union (· ∪ ·) s.aliases t.aliases
  taint := OrdMap.union (fun u v => TaintTree.join u v depth) s.taint t.taint

/-- Whether joining `s` into `t` brings nothing new: no location to a register, and neither a tree
nor anything to one. -/
def le (s t : State) (depth : Nat) : Bool :=
  s.aliases.entries.all (fun e => e.2.isSubset (t.read e.1)) &&
    s.taint.entries.all fun e => (t.tree? e.1).any (TaintTree.le e.2 · depth)

end State

end TaintFlow
