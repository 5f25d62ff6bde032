import TaintFlow.Json

/-!
The tokens of a JSON text: punctuation, and scalars with their values. A text is read one character
at a time by a finite automaton (`Lexer.step`), whose modes hold the scalar that is being read.
-/

namespace TaintFlow

namespace Json

inductive Token where
  | openObject
  | closeObject
  | openArray
  | closeArray
  | colon
  | comma
  | scalar (value : Json)

/-- A piece of a string literal: a character, or a code unit written as an escape. -/
inductive Piece where
  | char (c : Char)
  | unit (n : Nat)

/-- What is being read, with the characters so far, the last one first. -/
inductive Mode where
  | gap
  | word (read : List Char)
  | text (read : List Piece)
  /-- After a backslash in a string. -/
  | escape (read : List Piece)
  /-- Among the four digits of an escaped code unit. -/
  | hex (read : List Piece) (digits : List Nat)

def isSpace (c : Char) : Bool := c == ' ' || c == '\n' || c == '\t' || c == '\r'

/-- The characters of numbers and of the names of constants. -/
def isWordChar (c : Char) : Bool := c.isAlphanum || c == '-' || c == '+' || c == '.'

/-- Joins escaped code units to characters. A half of a surrogate pair alone is none. -/
def joinPieces : List Piece → Option (List Char)
  | [] => some []
  | .char c :: rest => (joinPieces rest).map (c :: ·)
  | .unit high :: .unit low :: rest =>
    if 0xd800 ≤ high ∧ high < 0xdc00 ∧ 0xdc00 ≤ low ∧ low < 0xe000 then
      (joinPieces rest).map (.ofNat (0x10000 + 0x400 * (high - 0xd800) + (low - 0xdc00)) :: ·)
    else if 0xd800 ≤ high ∧ high < 0xe000 then none
    else (joinPieces (.unit low :: rest)).map (.ofNat high :: ·)
  | .unit n :: rest =>
    if 0xd800 ≤ n ∧ n < 0xe000 then none else (joinPieces rest).map (.ofNat n :: ·)

/-- The digits at the beginning of a text, of which there has to be one, and the rest. -/
def digits? (cs : List Char) : Option (List Char × List Char) :=
  let ds := cs.takeWhile Char.isDigit
  if ds.isEmpty then none else some (ds, cs.dropWhile Char.isDigit)

/-- Whether a text is nothing or a fraction. -/
def dropFraction? : List Char → Option (List Char)
  | '.' :: cs => (digits? cs).map Prod.snd
  | cs => some cs

/-- What follows the exponent, if there is one, at the beginning of a text. -/
def dropExponent? : List Char → Option (List Char)
  | 'e' :: '+' :: cs | 'e' :: '-' :: cs | 'E' :: '+' :: cs | 'E' :: '-' :: cs | 'e' :: cs
  | 'E' :: cs => (digits? cs).map Prod.snd
  | cs => some cs

def natOfDigits (ds : List Char) : Nat := ds.foldl (fun n c => 10 * n + (c.toNat - '0'.toNat)) 0

/-- Reads a number. Integers of 64 bits are kept, except for the negative zero. -/
def number? (cs : List Char) : Option Json := do
  let (negative, body) := match cs with
    | '-' :: body => (true, body)
    | _ => (false, cs)
  let (ds, rest) ← digits? body
  if ds.length > 1 ∧ ds.head? = some '0' then none else
  let afterFraction ← dropFraction? rest
  let tail ← dropExponent? afterFraction
  if !tail.isEmpty then none else
  let n := natOfDigits ds
  if rest.isEmpty ∧ !negative ∧ n < Nat.pow 2 64 then return .int n
  if rest.isEmpty ∧ negative ∧ 0 < n ∧ n ≤ Nat.pow 2 63 then return .int (-n)
  return .number (.ofList cs)

/-- The value of a constant or a number. -/
def scalar? (cs : List Char) : Option Json :=
  if cs = "null".toList then some .null
  else if cs = "true".toList then some (.bool true)
  else if cs = "false".toList then some (.bool false)
  else number? cs

/-- The character behind a short escape. -/
def shortEscape? : Char → Option Char
  | '"' => some '"'
  | '\\' => some '\\'
  | '/' => some '/'
  | 'b' => some '\x08'
  | 'f' => some '\x0c'
  | 'n' => some '\n'
  | 'r' => some '\r'
  | 't' => some '\t'
  | _ => none

def hexDigit? (c : Char) : Option Nat :=
  if '0' ≤ c ∧ c ≤ '9' then some (c.toNat - '0'.toNat)
  else if 'a' ≤ c ∧ c ≤ 'f' then some (c.toNat - 'a'.toNat + 10)
  else if 'A' ≤ c ∧ c ≤ 'F' then some (c.toNat - 'A'.toNat + 10)
  else none

namespace Lexer

/-- Reads a character between scalars. -/
def start (c : Char) : Option (Mode × List Token) :=
  if isSpace c then some (.gap, [])
  else if isWordChar c then some (.word [c], [])
  else match c with
    | '"' => some (.text [], [])
    | '{' => some (.gap, [.openObject])
    | '}' => some (.gap, [.closeObject])
    | '[' => some (.gap, [.openArray])
    | ']' => some (.gap, [.closeArray])
    | ':' => some (.gap, [.colon])
    | ',' => some (.gap, [.comma])
    | _ => none

/-- Reads one character: the next mode, and the tokens that end here. -/
def step (mode : Mode) (c : Char) : Option (Mode × List Token) :=
  match mode with
  | .gap => start c
  | .word read =>
    if isWordChar c then some (.word (c :: read), [])
    else do
      let value ← scalar? read.reverse
      let (next, tokens) ← start c
      return (next, .scalar value :: tokens)
  | .text read =>
    if c = '"' then (joinPieces read.reverse).map fun s => (.gap, [.scalar (.str (.ofList s))])
    else if c = '\\' then some (.escape read, [])
    else if c.toNat < 0x20 then none
    else some (.text (.char c :: read), [])
  | .escape read =>
    if c = 'u' then some (.hex read [], [])
    else (shortEscape? c).map fun c => (.text (.char c :: read), [])
  | .hex read digits => do
    let d ← hexDigit? c
    match digits with
    | [z, y, x] => return (.text (.unit (((x * 16 + y) * 16 + z) * 16 + d) :: read), [])
    | _ => return (.hex read (d :: digits), [])

/-- The tokens that end at the end of the text. -/
def finish : Mode → Option (List Token)
  | .gap => some []
  | .word read => (scalar? read.reverse).map fun value => [.scalar value]
  | _ => none

end Lexer

/-- The tokens of a text read on from a mode. -/
def tokensFrom (mode : Mode) : List Char → Option (List Token)
  | [] => Lexer.finish mode
  | c :: cs =>
    match Lexer.step mode c with
    | none => none
    | some (next, tokens) => (tokensFrom next cs).map (tokens ++ ·)

/-- The tokens of a text. -/
def tokens? (text : String) : Option (List Token) := tokensFrom .gap text.toList

end Json

end TaintFlow
