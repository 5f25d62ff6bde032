import TaintFlow.CallSite
import TaintFlow.Model
import TaintFlow.Program.Document

/-!
The program under analysis: methods with numbered bodies and declared models, found by id or name.
-/

namespace TaintFlow

structure Method where
  id : MethodId
  name : String
  parameters : List String
  /-- None for a method that is known through its model only. -/
  body : Option Body
  declared : Option Model
  deriving DecidableEq

namespace Method

def hasBody (m : Method) : Bool := m.body.isSome

/-- The calls of the body in preorder: position and callee. -/
def calls (m : Method) : List (Nat × String) := (m.body.map Block.calls).getD []

/-- The line of the statement with a number, if it is known. -/
def lineOf (m : Method) (position : Nat) : Option Nat :=
  (m.body.bind (Block.find? position)).bind Place.line

end Method

/-- The methods by id. -/
structure Program where
  methods : List Method
  deriving DecidableEq

namespace Program

instance : EmptyCollection Program := ⟨⟨[]⟩⟩

instance : Inhabited Program := ⟨∅⟩

def size (p : Program) : Nat := p.methods.length

def ids (p : Program) : List MethodId := p.methods.map Method.id

def method? (p : Program) (id : MethodId) : Option Method := p.methods[id.index]?

def lookup (p : Program) (name : String) : Option Method := p.methods.find? (·.name == name)

def nameOf (p : Program) (id : MethodId) : String := ((p.method? id).map Method.name).getD ""

/-- Adds a method at the end, under the next id. -/
def push (p : Program) (name : String) (parameters : List String) (body : Option Body)
    (declared : Option Model) : Program :=
  ⟨p.methods ++ [⟨⟨p.size⟩, name, parameters, body, declared⟩]⟩

/-- The model of a declaration for a method, which a refusal names. -/
def declaredModel (method : String) (d : ModelDeclaration) : Interning Model :=
  tryCatch (Model.ofDeclaration d) fun cause => throw (.inMethod method cause)

/-- Adds the method of a document. -/
def addMethod (p : Program) (d : MethodDocument) : Interning Program := do
  if (p.lookup d.name).isSome then throw (.duplicateMethod d.name)
  let declared ← d.model.mapM (declaredModel d.name)
  return p.push d.name d.parameters (d.body.map fun b => (b.number 0).1) declared

def ofDocument (d : ProgramDocument) : Interning Program := d.foldlM addMethod ∅

/-- Changes the method with a name. -/
def update (p : Program) (name : String) (f : Method → Method) : Program :=
  ⟨p.methods.map fun m => if m.name == name then f m else m⟩

/-- Joins a declared model into the method with a name. A name without a method makes one that is
known through the model only. -/
def joinDeclared (p : Program) (name : String) (model : Model) : Program :=
  if (p.lookup name).isSome then
    p.update name fun m => { m with declared := some ((m.declared.getD ∅).join model) }
  else p.push name [] none (some model)

/-- Adds an entry of a model file. -/
def addModel (p : Program) (d : MethodModel) : Interning Program :=
  return p.joinDeclared d.method (← declaredModel d.method d.model)

def addModels (p : Program) (ds : List MethodModel) : Interning Program := ds.foldlM addModel p

/-- The kinds that declared models mention. -/
def declaredKinds (p : Program) : OrdSet KindId :=
  p.methods.foldl (fun ks m => ks ∪ (m.declared.map Model.kinds).getD ∅) ∅

end Program

end TaintFlow
