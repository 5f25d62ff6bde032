import TaintFlow.Port

/-!
Method bodies: blocks of statements, with branches and loops as statements that hold blocks. The
statements of a body are numbered in preorder; `Pos` is the type of the numbers, `Unit` before
numbering. `number` gives the numbers, `find?` looks one up and `calls` lists the calls.
-/

namespace TaintFlow

/-- An instruction after which the next statement follows. -/
inductive Instruction where
  /-- A new object or a constant. -/
  | fresh (dest : String)
  | move (dest src : String)
  | fieldRead (dest base : String) (field : Segment)
  | fieldWrite (base : String) (field : Segment) (src : String)
  | call (callee : String) (args : List String) (result : Option String)
  deriving DecidableEq

/-- The number of a statement and its line in the source, if known. -/
structure Place (Pos : Type) where
  position : Pos
  line : Option Nat
  deriving DecidableEq

/-- A block: nothing, or a statement and the block after it. -/
inductive Block (Pos : Type) where
  | done
  | run (place : Place Pos) (instruction : Instruction) (rest : Block Pos)
  /-- Leaves the method, with the value of a register if one is named. -/
  | leave (place : Place Pos) (value : Option String) (rest : Block Pos)
  | branch (place : Place Pos) (taken skipped rest : Block Pos)
  | loop (place : Place Pos) (body rest : Block Pos)
  deriving DecidableEq

/-- A body whose statements are numbered. -/
abbrev Body := Block Nat

namespace Block

variable {Pos : Type}

/-- The number of statements, those of inner blocks included. -/
def size : Block Pos → Nat
  | done => 0
  | run _ _ rest => 1 + rest.size
  | leave _ _ rest => 1 + rest.size
  | branch _ taken skipped rest => 1 + taken.size + skipped.size + rest.size
  | loop _ body rest => 1 + body.size + rest.size

def renumber (place : Place Pos) (next : Nat) : Place Nat := ⟨next, place.line⟩

/-- Numbers the statements in preorder, the first one with `next`; a branch comes before its arms
and a loop before its body. Also the number after the last one. -/
def number (next : Nat) : Block Pos → Body × Nat
  | done => (done, next)
  | run place i rest =>
    let (rest, stop) := rest.number (next + 1)
    (run (renumber place next) i rest, stop)
  | leave place value rest =>
    let (rest, stop) := rest.number (next + 1)
    (leave (renumber place next) value rest, stop)
  | branch place taken skipped rest =>
    let (taken, afterTaken) := taken.number (next + 1)
    let (skipped, afterSkipped) := skipped.number afterTaken
    let (rest, stop) := rest.number afterSkipped
    (branch (renumber place next) taken skipped rest, stop)
  | loop place body rest =>
    let (body, afterBody) := body.number (next + 1)
    let (rest, stop) := rest.number afterBody
    (loop (renumber place next) body rest, stop)

/-- The places of all statements in preorder. -/
def places : Block Pos → List (Place Pos)
  | done => []
  | run place _ rest => place :: rest.places
  | leave place _ rest => place :: rest.places
  | branch place taken skipped rest => place :: (taken.places ++ skipped.places ++ rest.places)
  | loop place body rest => place :: (body.places ++ rest.places)

/-- The place of the statement with a number. -/
def find? (position : Nat) : Body → Option (Place Nat)
  | done => none
  | run place _ rest => if place.position = position then some place else rest.find? position
  | leave place _ rest => if place.position = position then some place else rest.find? position
  | branch place taken skipped rest =>
    if place.position = position then some place
    else ((taken.find? position).or (skipped.find? position)).or (rest.find? position)
  | loop place body rest =>
    if place.position = position then some place
    else (body.find? position).or (rest.find? position)

/-- The calls in preorder: position and callee. -/
def calls : Body → List (Nat × String)
  | done => []
  | run place (.call callee _ _) rest => (place.position, callee) :: rest.calls
  | run _ _ rest => rest.calls
  | leave _ _ rest => rest.calls
  | branch _ taken skipped rest => taken.calls ++ skipped.calls ++ rest.calls
  | loop _ body rest => body.calls ++ rest.calls

end Block

end TaintFlow
