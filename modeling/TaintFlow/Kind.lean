import TaintFlow.ConfigError
import TaintFlow.OrdSet
import TaintFlow.Text.CharClass

/-!
Kinds of taint and the table that interns them. A kind is an ordinary name, one labelled half of a
sink that needs two flows, or such a half once its counterpart has been met for a rule. The table
gives each kind a dense id in the order of first interning, and kinds are compared by id.
-/

namespace TaintFlow

/-- One labelled half of a sink that needs two flows. -/
structure Half where
  base : String
  label : String
  deriving DecidableEq

inductive Kind where
  | named (name : String)
  | half (half : Half)
  /-- A half whose counterpart was met for the rule with this code. -/
  | triggered (half : Half) (rule : Int)
  deriving DecidableEq

/-- The place of a kind in the table that interned it. -/
structure KindId where
  index : Nat
  deriving DecidableEq

instance : LinearOrd KindId := .onKey KindId.index fun a b h => by cases a; cases b; cases h; rfl

/-- Whether a text may name a kind: it is not empty and holds no colon, blank or control character,
so that the parts of `Kind.name` can be told apart. -/
def validKindName (name : String) : Bool :=
  !name.isEmpty &&
    name.toList.all fun c => c != ':' && !Text.isBlank c && !Text.isControl c

def Half.name (h : Half) : String := "Partial:" ++ h.base ++ ":" ++ h.label

/-- The text that stands for a kind in traces and reports. -/
def Kind.name : Kind → String
  | named name => name
  | half h => h.name
  | triggered h rule => "Triggered:" ++ h.name ++ ":" ++ toString rule

/-- The name without labels and triggers. -/
def Kind.baseName : Kind → String
  | named name => name
  | half h => h.base
  | triggered h _ => h.base

/-- The kinds interned so far, by id. -/
structure KindTable where
  kinds : List Kind
  deriving DecidableEq

namespace KindTable

instance : EmptyCollection KindTable := ⟨⟨[]⟩⟩

instance : Inhabited KindTable := ⟨∅⟩

def size (t : KindTable) : Nat := t.kinds.length

def get? (t : KindTable) (id : KindId) : Option Kind := t.kinds[id.index]?

/-- The id of a kind that is in the table. -/
def find? (t : KindTable) (kind : Kind) : Option KindId := (t.kinds.idxOf? kind).map .mk

/-- The id of a kind, which is added at the end of the table if it is not there. -/
def intern (t : KindTable) (kind : Kind) : KindId × KindTable :=
  match t.find? kind with
  | some id => (id, t)
  | none => (⟨t.size⟩, ⟨t.kinds ++ [kind]⟩)

/-- The labelled half behind an id. -/
def half? (t : KindTable) (id : KindId) : Option Half :=
  match t.get? id with
  | some (.half h) => some h
  | _ => none

/-- The half and the rule behind the id of a triggered kind. -/
def triggered? (t : KindTable) (id : KindId) : Option (Half × Int) :=
  match t.get? id with
  | some (.triggered h rule) => some (h, rule)
  | _ => none

def findNamed? (t : KindTable) (name : String) : Option KindId := t.find? (.named name)

def findHalf? (t : KindTable) (h : Half) : Option KindId := t.find? (.half h)

/-- The id of the triggered form of a half for a rule. -/
def findTriggered? (t : KindTable) (id : KindId) (rule : Int) : Option KindId :=
  (t.half? id).bind fun h => t.find? (.triggered h rule)

/-- Interns the triggered form of a half for a rule. Only a half has one. -/
def trigger? (t : KindTable) (id : KindId) (rule : Int) : Option (KindId × KindTable) :=
  (t.half? id).map fun h => t.intern (.triggered h rule)

/-- The text of the kind behind an id. -/
def name (t : KindTable) (id : KindId) : String := ((t.get? id).map Kind.name).getD ""

def baseName (t : KindTable) (id : KindId) : String := ((t.get? id).map Kind.baseName).getD ""

def ids (t : KindTable) : List KindId := (List.range t.size).map .mk

end KindTable

/-- A reading that interns kinds on its way. What it interned stays when it is refused later. -/
abbrev Interning := ExceptT ConfigError (StateM KindTable)

namespace Interning

def internValid (names : List String) (kind : Kind) : Interning KindId :=
  match names.find? fun name => !validKindName name with
  | some name => throw (.invalidKind name)
  | none => modifyGet fun t => t.intern kind

/-- Interns an ordinary kind. -/
def named (name : String) : Interning KindId := internValid [name] (.named name)

/-- Interns the half of a base with a label. -/
def half (base label : String) : Interning KindId := internValid [base, label] (.half ⟨base, label⟩)

/-- Interns the triggered form of a half for a rule. -/
def trigger (id : KindId) (rule : Int) : Interning Unit :=
  modify fun t => ((t.trigger? id rule).map Prod.snd).getD t

/-- Interns ordinary kinds in the order of the list. -/
def namedAll (names : List String) : Interning (List KindId) := names.mapM named

/-- The outcome of a reading, and the table it leaves. -/
def runOn {α : Type} (t : KindTable) (m : Interning α) : Except ConfigError α × KindTable :=
  (ExceptT.run m).run t

end Interning

end TaintFlow
