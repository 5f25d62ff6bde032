import TaintFlow.Json

/-!
Writing JSON, on one line or with one member or item a line, indented by two blanks a level.
-/

namespace TaintFlow

namespace Json

/-- The hexadecimal digit of a number below 16. -/
def hexChar (n : Nat) : Char := if n < 10 then .ofNat (n + '0'.toNat) else .ofNat (n - 10 + 'a'.toNat)

/-- How a character is written in a string literal. -/
def escape (c : Char) : List Char :=
  match c with
  | '"' => ['\\', '"']
  | '\\' => ['\\', '\\']
  | '\x08' => ['\\', 'b']
  | '\x0c' => ['\\', 'f']
  | '\n' => ['\\', 'n']
  | '\r' => ['\\', 'r']
  | '\t' => ['\\', 't']
  | c =>
    if c.toNat < 0x20 then
      ['\\', 'u', '0', '0', hexChar (c.toNat / 16), hexChar (c.toNat % 16)]
    else [c]

def quote (s : String) : String := "\"" ++ .ofList (s.toList.flatMap escape) ++ "\""

mutual

/-- The text of a value on one line. -/
def compact : Json → String
  | null => "null"
  | bool true => "true"
  | bool false => "false"
  | int n => toString n
  | number text => text
  | str s => quote s
  | arr items => "[" ++ ",".intercalate (compactItems items) ++ "]"
  | obj members => "\x7b" ++ ",".intercalate (compactMembers members) ++ "\x7d"

def compactItems : List Json → List String
  | [] => []
  | item :: items => item.compact :: compactItems items

def compactMembers : List (String × Json) → List String
  | [] => []
  | (name, value) :: members => (quote name ++ ":" ++ value.compact) :: compactMembers members

end

/-- A bracketed list with one entry a line; without entries it stays on its line. -/
def block (start stop : String) (indent : String) (entries : List String) : String :=
  if entries.isEmpty then start ++ stop
  else
    start ++ "\n" ++ ",\n".intercalate (entries.map fun e => indent ++ "  " ++ e) ++ "\n" ++ indent ++
      stop

mutual

/-- The text of a value with one entry a line, the lines after the first one at an indentation. -/
def pretty (indent : String) : Json → String
  | arr items => block "[" "]" indent (prettyItems (indent ++ "  ") items)
  | obj members => block "\x7b" "\x7d" indent (prettyMembers (indent ++ "  ") members)
  | value => value.compact

def prettyItems (indent : String) : List Json → List String
  | [] => []
  | item :: items => item.pretty indent :: prettyItems indent items

def prettyMembers (indent : String) : List (String × Json) → List String
  | [] => []
  | (name, value) :: members =>
    (quote name ++ ": " ++ value.pretty indent) :: prettyMembers indent members

end

end Json

end TaintFlow
