/-!
JSON values. The formats that are read tell integers from all other numbers, so a value keeps the
integers of 64 bits and, of other numbers, only how they are written.
-/

namespace TaintFlow

inductive Json where
  | null
  | bool (b : Bool)
  /-- A number written without fraction and exponent, from -2^63 below 2^64. -/
  | int (n : Int)
  /-- Any other number, as it is written. -/
  | number (text : String)
  | str (s : String)
  | arr (items : List Json)
  | obj (members : List (String × Json))
  deriving Inhabited

/-- The members of an object. -/
abbrev Json.Members := List (String × Json)

namespace Json

def nat (n : Nat) : Json := int n

def strings (ss : List String) : Json := arr (ss.map str)

/-- A value, or `null` where there is none. -/
def ofOption {α : Type} (f : α → Json) (a : Option α) : Json := (a.map f).getD null

/-- The value of the member with a name. -/
def Members.get? (ms : Members) (name : String) : Option Json :=
  (ms.find? fun m => m.1 == name).map Prod.snd

end Json

end TaintFlow
