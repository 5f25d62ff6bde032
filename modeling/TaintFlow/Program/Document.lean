import TaintFlow.Model.Declaration
import TaintFlow.Program.Block

/-!
Programs as documents: a list of methods, whose bodies are arrays of statements. A statement names
its operation in the member `op`, or gives the number of the operation in `operations`.
-/

namespace TaintFlow

structure MethodDocument where
  name : String
  parameters : List String
  body : Option (Block Unit)
  model : Option ModelDeclaration
  deriving DecidableEq

abbrev ProgramDocument := List MethodDocument

namespace Block

/-- The operations by number. -/
def operations : List String :=
  ["new", "const", "move", "field_read", "field_write", "call", "return", "branch", "loop"]

def decodeOperation : Json → Decode String
  | .str name => return name
  | .int n => Json.needed (if 0 ≤ n then operations[n.toNat]? else none)
  | _ => throw .shape

/-- The member with the name of a field; without it the field is unknown. -/
def decodeField (ms : Json.Members) : Decode Segment := do
  return ((← ms.takeNullable? "field" Json.asString).map .ofName).getD .wildcard

def register (ms : Json.Members) (name : String) : Decode String := do
  Json.needed (← ms.take? name Json.asString)

/-- The members that an operation reads. -/
def memberNames (op : String) : List String :=
  match op with
  | "new" | "const" => ["dest"]
  | "move" => ["dest", "src"]
  | "field_read" => ["dest", "base", "field"]
  | "field_write" => ["base", "field", "src"]
  | "call" => ["callee", "args", "result"]
  | "return" => ["value"]
  | "branch" => ["then", "otherwise"]
  | "loop" => ["body"]
  | _ => []

/-- Reads an operation that holds no blocks. -/
def decodeInstruction (op : String) (ms : Json.Members) : Decode Instruction := do
  match op with
  | "new" | "const" => return .fresh (← register ms "dest")
  | "move" => return .move (← register ms "dest") (← register ms "src")
  | "field_read" => return .fieldRead (← register ms "dest") (← register ms "base") (← decodeField ms)
  | "field_write" =>
    return .fieldWrite (← register ms "base") (← decodeField ms) (← register ms "src")
  | "call" =>
    return .call (← register ms "callee") ((← ms.take? "args" Json.asStrings).getD [])
      (← ms.takeNullable? "result" Json.asString)
  | _ => throw .shape

theorem sizeOf_get?_lt {ms : Json.Members} {name : String} {v : Json}
    (h : ms.get? name = some v) : sizeOf v < sizeOf ms := by
  obtain ⟨m, hm, rfl⟩ := Option.map_eq_some_iff.1 h
  have hlt := List.sizeOf_lt_of_mem (List.mem_of_find?_eq_some hm)
  cases m
  simp only [Prod.mk.sizeOf_spec] at hlt
  simp only
  omega

mutual

/-- Reads an array of statements. -/
def decode : Json → Decode (Block Unit)
  | .arr items => decodeItems items
  | _ => throw .shape

def decodeItems : List Json → Decode (Block Unit)
  | [] => return done
  | item :: items => do
    let statement ← decodeStatement item
    return statement (← decodeItems items)

/-- Reads a statement: the block that it makes of the block after it. -/
def decodeStatement : Json → Decode (Block Unit → Block Unit)
  | .obj ms => do
    Json.Members.refuseRepeated ms ["line", "op"]
    let place : Place Unit := ⟨(), ← Json.Members.takeNullable? ms "line" (Json.asNat 32)⟩
    let op ← Json.needed (← Json.Members.take? ms "op" decodeOperation)
    Json.Members.refuseRepeated ms (memberNames op)
    match op with
    | "return" => return leave place (← Json.Members.takeNullable? ms "value" Json.asString)
    | "branch" =>
      let taken ← match h : Json.Members.get? ms "then" with
        | some v => have := sizeOf_get?_lt h; decode v
        | none => throw DecodeError.shape
      let skipped ← match h : Json.Members.get? ms "otherwise" with
        | some v => have := sizeOf_get?_lt h; decode v
        | none => pure done
      return branch place taken skipped
    | "loop" =>
      let body ← match h : Json.Members.get? ms "body" with
        | some v => have := sizeOf_get?_lt h; decode v
        | none => throw DecodeError.shape
      return loop place body
    | op => return run place (← decodeInstruction op ms)
  | _ => throw .shape

end

end Block

namespace MethodDocument

def memberNames : List String := ["name", "parameters", "body", "model"]

def decode (v : Json) : Decode MethodDocument := do
  let ms ← v.asRecord memberNames
  let body ← ms.takeNullable? "body" Block.decode
  let model ← ms.takeNullable? "model" ModelDeclaration.decode
  let name ← ms.take? "name" Json.asString
  let parameters ← ms.take? "parameters" Json.asStrings
  return { name := ← Json.needed name, parameters := parameters.getD [], body, model }

end MethodDocument

def ProgramDocument.decode (v : Json) : Decode ProgramDocument := do
  Json.needed (← (← v.asRecord ["methods"]).take? "methods" (Json.asArray MethodDocument.decode))

end TaintFlow
