import TaintFlow.Memory

/-!
An arena of locations. It numbers the locations of one method as it allocates them, and keeps the
number of every site, and under every location the numbers of its fields, so that a site or a field
that is met again is not allocated again. An arena knows a location by the number of its root and by
its path only; `Arena.location?` is what it stands for.
-/

namespace TaintFlow

/-- The number of a location in the arena of a method. -/
structure LocationId where
  method : MethodId
  index : Nat
  deriving DecidableEq

/-- What an arena keeps of a location: its root, the fields that lead there from the root, and the
fields below it that were met. -/
structure Cell where
  root : LocationId
  path : Path
  fields : OrdMap Segment LocationId
  deriving DecidableEq

structure Arena where
  method : MethodId
  /-- The locations in the order of their allocation. -/
  cells : List Cell
  sites : OrdMap Site LocationId
  deriving DecidableEq

namespace Arena

def new (method : MethodId) : Arena := ⟨method, [], ∅⟩

def size (a : Arena) : Nat := a.cells.length

/-- What is kept of a location. Locations of other methods are foreign to the arena. -/
def cell? (a : Arena) (id : LocationId) : Option Cell :=
  if id.method = a.method then a.cells[id.index]? else none

def root? (a : Arena) (id : LocationId) : Option LocationId := (a.cell? id).map Cell.root

def path? (a : Arena) (id : LocationId) : Option Path := (a.cell? id).map Cell.path

/-- The number of the next location. -/
def next (a : Arena) : LocationId := ⟨a.method, a.size⟩

/-- Adds a location; without a root it is a root itself. -/
def allocate (a : Arena) (root : Option LocationId) (path : Path) : Arena :=
  { a with cells := a.cells ++ [⟨root.getD a.next, path, ∅⟩] }

/-- The location of a site, if it was allocated. -/
def known? (a : Arena) (site : Site) : Option LocationId := a.sites.get? site

/-- The location of a site, allocated at the first meeting. -/
def meet (a : Arena) (site : Site) : LocationId × Arena :=
  match a.known? site with
  | some id => (id, a)
  | none => (a.next, { a.allocate none [] with sites := a.sites.insert site a.next })

def parameter (a : Arena) (index : Nat) : LocationId × Arena := a.meet (.parameter index)

def instruction (a : Arena) (position : Nat) : LocationId × Arena := a.meet (.instruction position)

/-- Keeps the number of a field under its location. -/
def link (a : Arena) (parent : LocationId) (s : Segment) (id : LocationId) : Arena :=
  { a with cells := a.cells.modify parent.index fun c => { c with fields := c.fields.insert s id } }

/-- The location of a field, allocated at the first meeting. -/
def meetField (a : Arena) (parent : LocationId) (c : Cell) (s : Segment) : LocationId × Arena :=
  match c.fields.get? s with
  | some id => (id, a)
  | none => (a.next, (a.allocate (some c.root) (c.path ++ [s])).link parent s a.next)

/-- The location at a field. At `depth` fields below the root, and below a wildcard, a location
stands for all its fields. There is no answer for a location that is not in the arena. -/
def field? (a : Arena) (parent : LocationId) (s : Segment) (depth : Nat) :
    Option (LocationId × Arena) :=
  (a.cell? parent).map fun c =>
    if c.path.length < depth ∧ c.path.getLast? ≠ some .wildcard then a.meetField parent c s
    else (parent, a)

/-- Follows a chain of fields. -/
def fieldPath? (a : Arena) (start : LocationId) (path : Path) (depth : Nat) :
    Option (LocationId × Arena) :=
  path.foldlM (fun r s => r.2.field? r.1 s depth) (start, a)

/-- The site whose location is a root. -/
def siteOf? (a : Arena) (root : LocationId) : Option Site :=
  (a.sites.entries.find? (·.2 = root)).map Prod.fst

/-- The location that a number stands for. -/
def location? (a : Arena) (id : LocationId) : Option Location := do
  let c ← a.cell? id
  return ⟨⟨a.method, ← a.siteOf? c.root⟩, c.path⟩

end Arena

end TaintFlow
