import TaintFlow.Json.Token

/-!
Reading a JSON text. The tokens are taken one by one by an automaton with a stack of the arrays and
objects that are open.
-/

namespace TaintFlow

namespace Json

/-- An array or object that is open, with its contents so far, the last one first. -/
inductive Level where
  | items (read : List Json)
  | members (read : Members)
  /-- An object, at the value of a member. -/
  | member (read : Members) (name : String)

/-- What may come next. -/
inductive Want where
  | value
  | valueOrClose
  | name
  | nameOrClose
  | colon (name : String)
  | commaOrClose
  | nothing (value : Json)

structure Reader where
  stack : List Level
  want : Want

namespace Reader

def init : Reader := ⟨[], .value⟩

/-- Puts a finished value where it belongs. -/
def deliver (value : Json) : List Level → Option Reader
  | [] => some ⟨[], .nothing value⟩
  | .items read :: stack => some ⟨.items (value :: read) :: stack, .commaOrClose⟩
  | .member read name :: stack => some ⟨.members ((name, value) :: read) :: stack, .commaOrClose⟩
  | .members _ :: _ => none

/-- Reads the beginning of a value. -/
def openValue (stack : List Level) : Token → Option Reader
  | .openArray => some ⟨.items [] :: stack, .valueOrClose⟩
  | .openObject => some ⟨.members [] :: stack, .nameOrClose⟩
  | .scalar value => deliver value stack
  | _ => none

/-- Reads the end of an array or object. -/
def close : List Level → Token → Option Reader
  | .items read :: stack, .closeArray => deliver (.arr read.reverse) stack
  | .members read :: stack, .closeObject => deliver (.obj read.reverse) stack
  | _, _ => none

/-- Reads one token. -/
def step (r : Reader) (token : Token) : Option Reader :=
  match r.want, token with
  | .value, t => openValue r.stack t
  | .valueOrClose, .closeArray => close r.stack .closeArray
  | .valueOrClose, t => openValue r.stack t
  | .nameOrClose, .closeObject => close r.stack .closeObject
  | .name, .scalar (.str name) | .nameOrClose, .scalar (.str name) =>
    some { r with want := .colon name }
  | .colon name, .colon =>
    match r.stack with
    | .members read :: stack => some ⟨.member read name :: stack, .value⟩
    | _ => none
  | .commaOrClose, .comma =>
    match r.stack with
    | .members _ :: _ => some { r with want := .name }
    | .items _ :: _ => some { r with want := .value }
    | _ => none
  | .commaOrClose, t => close r.stack t
  | _, _ => none

/-- The value that was read, if it is complete. -/
def result? (r : Reader) : Option Json :=
  match r.want with
  | .nothing value => some value
  | _ => none

end Reader

/-- Reads a text that holds one value. -/
def parse? (text : String) : Option Json := do
  let tokens ← tokens? text
  let reader ← tokens.foldlM Reader.step Reader.init
  reader.result?

end Json

end TaintFlow
