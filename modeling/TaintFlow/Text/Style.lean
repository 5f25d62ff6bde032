/-!
Styled text for terminals. A style is a list of codes; the text is put between the sequence that
selects them and the one that resets all. A reset inside the text is followed by the style again.
-/

namespace TaintFlow

/-- The codes that a text is shown with. -/
structure Style where
  codes : List Nat
  deriving DecidableEq

namespace Style

def bold (s : Style) : Style := ⟨1 :: s.codes⟩

def strong : Style := ⟨[1]⟩

def dim : Style := ⟨[2]⟩

def red : Style := ⟨[31]⟩

def green : Style := ⟨[32]⟩

def yellow : Style := ⟨[33]⟩

def blue : Style := ⟨[34]⟩

def magenta : Style := ⟨[35]⟩

def cyan : Style := ⟨[36]⟩

def white : Style := ⟨[37]⟩

def bright : Style := ⟨[97]⟩

/-- The sequence that ends every style. -/
def reset : String := "\x1b[0m"

/-- The sequence that selects a style. -/
def select (s : Style) : String := "\x1b[" ++ ";".intercalate (s.codes.map toString) ++ "m"

/-- A text in a style, or as it is where styles are off. -/
def paint (styled : Bool) (s : Style) (text : String) : String :=
  if styled then s.select ++ (reset ++ s.select).intercalate (text.splitOn reset) ++ reset else text

/-- Whether output is styled, given three settings of the environment. Styles can be forced on, or
else off; if neither is done they are on at a terminal, unless they are switched off. A setting of
`0` switches off. -/
def isWanted (force never always : Option String) (terminal : Bool) : Bool :=
  if force.any (· != "0") then true
  else if never.isSome then false
  else terminal && always.all (· != "0")

end Style

end TaintFlow
