import TaintFlow.ConfigError
import TaintFlow.Order
import TaintFlow.Text.CharClass

/-!
Ports name where taint enters or leaves a method: `Return` or `Argument(n)`, followed by a chain of
fields such as `Argument(1).config.url`. The segment `*` stands for every field of its parent.
`Port.parse` reads a port and `Port.render` writes it.
-/

namespace TaintFlow

/-- One step of a field chain. -/
inductive Segment where
  | field (name : String)
  | wildcard
  deriving DecidableEq

/-- A chain of fields below a root. -/
abbrev Path := List Segment

/-- Where a port starts. -/
inductive Root where
  | argument (index : Nat)
  | result
  deriving DecidableEq

structure Port where
  root : Root
  path : Path
  deriving DecidableEq

/-- Fields come in the order of their names and before the wildcard. -/
instance : LinearOrd Segment :=
  .onKey (fun | .field name => (0, name) | .wildcard => (1, ""))
    fun a b h => by cases a <;> cases b <;> simp_all

/-- Arguments come in the order of their indices and before the result. -/
instance : LinearOrd Root :=
  .onKey (fun | .argument index => (0, index) | .result => (1, 0))
    fun a b h => by cases a <;> cases b <;> simp_all

instance : LinearOrd Port :=
  .onKey (fun p => (p.root, p.path)) fun a b h => by cases a; cases b; simp_all

/-- The segment written as a name; `*` is the wildcard. -/
def Segment.ofName (name : String) : Segment := if name = "*" then .wildcard else .field name

def Segment.render : Segment → String
  | field name => name
  | wildcard => "*"

/-- A path as `.a.b`; the empty path has the empty text. -/
def Path.render (path : Path) : String := String.join (path.map fun s => "." ++ s.render)

/-- The part of a path that an analysis of bounded depth tells apart: at most `depth` segments, cut
at the first wildcard, which covers everything below it. -/
def Path.normalize (path : Path) (depth : Nat) : Path := (path.take depth).takeWhile (· ≠ .wildcard)

def Root.render : Root → String
  | argument index => "Argument(" ++ toString index ++ ")"
  | result => "Return"

namespace Port

def argument (index : Nat) : Port := ⟨.argument index, []⟩

def result : Port := ⟨.result, []⟩

def render (p : Port) : String := p.root.render ++ p.path.render

def normalize (p : Port) (depth : Nat) : Port := { p with path := p.path.normalize depth }

/-- Argument indices are below this bound. -/
def indexBound : Nat := Nat.pow 2 64

/-- What remains of a text after the given beginning. -/
def after? (start : String) (cs : List Char) : Option (List Char) :=
  if start.toList.isPrefixOf cs then some (cs.drop start.length) else none

/-- The pieces of a text between its dots; there is always one. -/
def splitDots : List Char → List (List Char)
  | [] => [[]]
  | c :: cs =>
    match splitDots cs with
    | [] => [[c]]
    | piece :: pieces => if c = '.' then [] :: piece :: pieces else (c :: piece) :: pieces

/-- Reads a field chain: nothing, or a dot before each of some non-empty names without blanks. -/
def parsePath? (cs : List Char) : Option Path :=
  match splitDots cs with
  | [] :: names =>
    if names.all fun name => !name.isEmpty && !name.any Text.isBlank then
      some (names.map fun name => .ofName (String.ofList name))
    else none
  | _ => none

/-- Reads a root and a field chain; the index of an argument is left as its digits. -/
def split? (cs : List Char) : Option (Option (List Char) × Path) :=
  match after? "Return" cs with
  | some rest => (parsePath? rest).map (none, ·)
  | none => do
    let rest ← after? "Argument(" cs
    let digits := rest.takeWhile Text.isDecimalDigit
    if digits.isEmpty then none else
    let rest ← after? ")" (rest.dropWhile Text.isDecimalDigit)
    let path ← parsePath? rest
    return (some digits, path)

/-- Reads a port, allowing blanks around it. -/
def parse (text : String) : Except ConfigError Port :=
  match split? (Text.trim text.toList) with
  | none => throw (.invalidPort text .grammar)
  | some (none, path) => return ⟨.result, path⟩
  | some (some digits, path) =>
    if digits.all Char.isDigit ∧ Text.digitsValue digits < indexBound then
      return ⟨.argument (Text.digitsValue digits), path⟩
    else throw (.invalidPort text .indexRange)

end Port

end TaintFlow
