import TaintFlow.CallSite
import TaintFlow.OrdSet
import TaintFlow.Port

/-!
Abstract memory. A location is an origin (the value of a parameter at entry, or what an instruction
allocates) followed by a chain of fields, and two locations are the same if and only if their
origins and chains are. `Memory` numbers the locations of one method in the order in which they are
first met.
-/

namespace TaintFlow

/-- What brings a value into a method. -/
inductive Site where
  | parameter (index : Nat)
  | instruction (position : Nat)
  deriving DecidableEq

/-- The root of locations: a site in a method. -/
structure Origin where
  method : MethodId
  site : Site
  deriving DecidableEq

/-- An origin or a field below one. -/
structure Location where
  origin : Origin
  path : Path
  deriving DecidableEq

instance : LinearOrd Site :=
  .onKey (fun | .parameter index => (0, index) | .instruction position => (1, position))
    fun a b h => by cases a <;> cases b <;> simp_all

instance : LinearOrd Origin :=
  .onKey (fun o => (o.method, o.site)) fun a b h => by cases a; cases b; simp_all

instance : LinearOrd Location :=
  .onKey (fun l => (l.origin, l.path)) fun a b h => by cases a; cases b; simp_all

/-- The locations that a register may hold. -/
abbrev AliasSet := OrdSet Location

namespace Location

/-- The location holding the value of a parameter at entry. -/
def parameter (method : MethodId) (index : Nat) : Location := ⟨⟨method, .parameter index⟩, []⟩

/-- The location allocated by the instruction at a position. -/
def instruction (method : MethodId) (position : Nat) : Location :=
  ⟨⟨method, .instruction position⟩, []⟩

/-- The location at a field. At `depth` fields below the origin, and below a wildcard, a location
stands for all its fields. -/
def field (l : Location) (s : Segment) (depth : Nat) : Location :=
  if l.path.length < depth ∧ l.path.getLast? ≠ some .wildcard then
    { l with path := l.path ++ [s] }
  else l

/-- Follows a chain of fields. -/
def fieldPath (l : Location) (path : Path) (depth : Nat) : Location :=
  path.foldl (fun l s => l.field s depth) l

end Location

/-- The locations of a method that were met so far, without repetition, in the order of meeting. -/
structure Memory where
  method : MethodId
  known : List Location

namespace Memory

def new (method : MethodId) : Memory := ⟨method, []⟩

def size (m : Memory) : Nat := m.known.length

/-- Records a location at its first meeting. -/
def meet (m : Memory) (l : Location) : Memory :=
  if l ∈ m.known then m else { m with known := m.known ++ [l] }

def parameter (m : Memory) (index : Nat) : Location × Memory :=
  let l := Location.parameter m.method index
  (l, m.meet l)

def instruction (m : Memory) (position : Nat) : Location × Memory :=
  let l := Location.instruction m.method position
  (l, m.meet l)

def field (m : Memory) (l : Location) (s : Segment) (depth : Nat) : Location × Memory :=
  let l := l.field s depth
  (l, m.meet l)

/-- Follows a chain of fields, meeting every location on it. -/
def fieldPath (m : Memory) (l : Location) (path : Path) (depth : Nat) : Location × Memory :=
  path.foldl (fun r s => r.2.field r.1 s depth) (l, m)

/-- The location of a parameter, if it was met. -/
def knownParameter? (m : Memory) (index : Nat) : Option Location :=
  m.known.find? (· = Location.parameter m.method index)

/-- The number of a location. -/
def number? (m : Memory) (l : Location) : Option Nat := m.known.idxOf? l

/-- The members of an alias set in the order of their numbers. -/
def arrange (m : Memory) (s : AliasSet) : List Location := m.known.filter (· ∈ s)

/-- Follows a field from every location of an alias set. -/
def fieldAll (m : Memory) (s : AliasSet) (segment : Segment) (depth : Nat) : AliasSet × Memory :=
  (s.map (·.field segment depth),
    (m.arrange s).foldl (fun m l => (m.field l segment depth).2) m)

/-- The origin of a location, which has to belong to the method of this memory. -/
def originOf? (m : Memory) (l : Location) : Option Origin :=
  if l.origin.method = m.method then some l.origin else none

end Memory

end TaintFlow
