import TaintFlow.ConfigError
import TaintFlow.Json

/-!
Taking a value of an expected shape out of JSON. A record is an object, or an array of the values
of its first fields. The members that are present are decoded before any missing one is complained
of, so a decoder first takes every member it knows, in the order of their names, and then asks for
those that it needs.
-/

namespace TaintFlow

/-- Why a value is not of the expected shape. -/
inductive DecodeError where
  | shape
  /-- A text inside the value is refused. -/
  | refused (cause : ConfigError)
  deriving DecidableEq

abbrev Decode := Except DecodeError

namespace Json

variable {α : Type}

def asString : Json → Decode String
  | str s => return s
  | _ => throw .shape

def asBool : Json → Decode Bool
  | bool b => return b
  | _ => throw .shape

/-- An integer from `low` below `high`. -/
def asIntWithin (low high : Int) : Json → Decode Int
  | int n => if low ≤ n ∧ n < high then return n else throw .shape
  | _ => throw .shape

/-- A natural number of a number of bits. -/
def asNat (bits : Nat) (v : Json) : Decode Nat := return (← v.asIntWithin 0 (Int.pow 2 bits)).toNat

/-- A signed integer of 64 bits. -/
def asInt64 : Json → Decode Int := asIntWithin (-Int.pow 2 63) (Int.pow 2 63)

def asArray (item : Json → Decode α) : Json → Decode (List α)
  | arr items => items.mapM item
  | _ => throw .shape

def asStrings : Json → Decode (List String) := asArray asString

/-- `null` stands for no value. -/
def orNull (f : Json → Decode α) : Json → Decode (Option α)
  | null => return none
  | v => return some (← f v)

def asObject : Json → Decode Members
  | obj members => return members
  | _ => throw .shape

namespace Members

/-- The decoded value of a member, if it is there. -/
def take? (ms : Members) (name : String) (f : Json → Decode α) : Decode (Option α) :=
  (ms.get? name).mapM f

/-- The decoded value of a member, if it is there and not `null`. -/
def takeNullable? (ms : Members) (name : String) (f : Json → Decode α) : Decode (Option α) :=
  return (← ms.take? name (orNull f)).join

/-- Refuses members that are not in a list of names. -/
def allowOnly (ms : Members) (names : List String) : Decode Unit :=
  if ms.all fun m => names.contains m.1 then return () else throw .shape

/-- How many members have a name. -/
def count (ms : Members) (name : String) : Nat := ms.countP fun m => m.1 == name

/-- Refuses members of the same name, for a list of names. -/
def refuseRepeated (ms : Members) (names : List String) : Decode Unit :=
  if names.all fun name => ms.count name ≤ 1 then return () else throw .shape

end Members

/-- The members of a record with some fields. An object may have other members, and an array has
the values of the first fields. -/
def asRecord (fields : List String) : Json → Decode Members
  | obj ms => do
    Members.refuseRepeated ms fields
    return ms
  | arr items => if items.length ≤ fields.length then return fields.zip items else throw .shape
  | _ => throw .shape

/-- The value of a member that has to be there. -/
def needed : Option α → Decode α
  | some a => return a
  | none => throw .shape

end Json

end TaintFlow
