import TaintFlow.TaintTree.Node

/-!
The taint stored below one root location, by field path. Trees with the same nodes are equal. A
write refines what is there: fields on its way are listed with the frames of their parents first.
-/

namespace TaintFlow

/-- Taint by field path. -/
structure TaintTree where
  root : Node
  ordered : root.Ordered

namespace TaintTree

instance : DecidableEq TaintTree := fun a b =>
  decidable_of_iff (a.root = b.root)
    ⟨fun h => by cases a; cases b; cases h; rfl, fun h => h ▸ rfl⟩

/-- A tree with frames on the root only. -/
def leaf (frames : FrameSet) : TaintTree := ⟨.bare frames, trivial⟩

instance : EmptyCollection TaintTree := ⟨leaf ∅⟩

instance : Inhabited TaintTree := ⟨∅⟩

def isEmpty (t : TaintTree) : Bool := t.root.isEmpty

/-- The frames of all nodes. -/
def collect (t : TaintTree) : FrameSet := t.root.collect

/-- Everything readable at a path, as a tree. -/
def subtree (t : TaintTree) (path : Path) (depth : Nat) : TaintTree :=
  ⟨t.root.subtree depth path, t.ordered.subtree depth path⟩

/-- All frames readable at a path. -/
def read (t : TaintTree) (path : Path) (depth : Nat) : FrameSet := (t.subtree path depth).collect

/-- The join at a merge of control flow. -/
def join (t u : TaintTree) (depth : Nat) : TaintTree :=
  ⟨t.root.join depth u.root, t.ordered.join u.ordered depth⟩

/-- Whether joining `t` into `u` brings nothing new. -/
def le (t u : TaintTree) (depth : Nat) : Bool := t.root.le depth u.root

/-- Folds what lies more than `depth` fields below into the nodes at that depth. -/
def limit (t : TaintTree) (depth : Nat) : TaintTree := ⟨t.root.limit depth, t.ordered.limit depth⟩

/-- The field names of a path. -/
def fieldNames (path : Path) : List String :=
  path.filterMap fun
    | .field name => some name
    | .wildcard => none

/-- Writes a tree at the normal form of a path. A strong write replaces what is there if the path
is in normal form; any other write is joined into it. -/
def write (t : TaintTree) (path : Path) (value : TaintTree) (strong : Bool) (depth : Nat) :
    TaintTree :=
  let target := path.normalize depth
  let value := value.limit (depth - target.length)
  if strong ∧ target = path then
    ⟨t.root.modifyAt depth (fun _ => value.root) (fieldNames target),
      t.ordered.modifyAt (fun _ => value.ordered) (fieldNames target)⟩
  else
    ⟨t.root.modifyAt depth (fun u => u.join depth value.root) (fieldNames target),
      t.ordered.modifyAt (fun h => h.join value.ordered depth) (fieldNames target)⟩

/-- Merges the fields of nodes with more than `limit` leaves into the nodes, bottom-up, and marks
the merged frames. -/
def collapse (t : TaintTree) (limit : Nat) : TaintTree :=
  ⟨(Node.settle limit (t.root.collapseFields limit)).node,
    (t.ordered.collapseFields limit).settle limit⟩

/-- Whether `collapse` merges anything. -/
def collapses (t : TaintTree) (limit : Nat) : Bool :=
  (Node.settle limit (t.root.collapseFields limit)).any

/-- Changes the frames of every node. -/
def mapFrames (f : FrameSet → FrameSet) (t : TaintTree) : TaintTree :=
  ⟨t.root.mapFrames f, t.ordered.mapFrames f⟩

/-- The nodes with frames, with their paths, in path order. -/
def nodes (t : TaintTree) : List (Path × FrameSet) :=
  Node.listed [] t.root.frames ++ t.root.listFields []

end TaintTree

end TaintFlow
