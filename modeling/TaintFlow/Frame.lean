import TaintFlow.Kind
import TaintFlow.Port

/-!
Frames are units of taint: a source or sink kind, or the value of a parameter of the method under
analysis, with the transforms it went through. What is reported about a frame (features and a trace
of calls) is kept beside it and joined: `FrameInfo.join` is a least upper bound for `FrameInfo.le`,
which says that joining brings nothing new.
-/

namespace TaintFlow

/-- One call of a trace: the caller and the position of the call in it, the method called, and the
port of it that the taint went through. -/
structure Step where
  method : String
  position : Nat
  callee : String
  port : String
  deriving DecidableEq

instance : LinearOrd Step :=
  .onKey (fun s => (s.method, s.position, s.callee, s.port))
    fun a b h => by cases a; cases b; simp_all

def Step.render (s : Step) : String :=
  s.method ++ "@" ++ toString s.position ++ " -> " ++ s.callee ++ " [" ++ s.port ++ "]"

/-- Calls from the origin of a flow inwards. -/
abbrev Trace := List Step

/-- The shorter trace comes first, and of two equally long ones the smaller. -/
def Trace.key (t : Trace) : Nat × List Step := (t.length, t)

/-- Whether a trace is preferred to another. -/
def Trace.before (t u : Trace) : Bool := compare (Trace.key t) (Trace.key u) == .lt

/-- The first of the traces with the fewest calls. -/
def Trace.shortest? (ts : List Trace) : Option Trace :=
  ts.foldl (fun best t => if best.any fun b => b.length ≤ t.length then best else some t) none

/-- What a frame stands for. -/
inductive Label where
  | kind (id : KindId)
  /-- The value at a path below a parameter of the method under analysis. -/
  | argument (index : Nat) (path : Path)
  deriving DecidableEq

/-- Kinds come before arguments. -/
instance : LinearOrd Label :=
  .onKey
    (fun
      | .kind id => ((0, id), (0, []))
      | .argument index path => ((1, ⟨0⟩), (index, path)))
    fun a b h => by cases a <;> cases b <;> simp_all

/-- The identity of a unit of taint. Sanitizers are the source kinds removed along the flow; frames
of arguments carry them, and the sinks inferred from those. -/
structure Frame where
  label : Label
  transforms : List KindId
  sanitizers : OrdSet KindId
  deriving DecidableEq

instance : LinearOrd Frame :=
  .onKey (fun f => (f.label, f.transforms, f.sanitizers))
    fun a b h => by cases a; cases b; simp_all

namespace Frame

def ofKind (id : KindId) : Frame := ⟨.kind id, [], ∅⟩

def ofArgument (index : Nat) (path : Path) : Frame := ⟨.argument index path, [], ∅⟩

def kind? (f : Frame) : Option KindId :=
  match f.label with
  | .kind id => some id
  | .argument _ _ => none

def isArgument (f : Frame) : Bool := f.kind?.isNone

/-- Appends transforms as long as there are fewer than `limit`. -/
def withTransforms (f : Frame) (transforms : List KindId) (limit : Nat) : Frame :=
  { f with transforms := f.transforms ++ transforms.take (limit - f.transforms.length) }

def withSanitizers (f : Frame) (sanitizers : OrdSet KindId) : Frame :=
  { f with sanitizers := f.sanitizers ∪ sanitizers }

/-- Whether a source frame passes the sanitizers recorded on `f`. -/
def admits (f source : Frame) : Bool :=
  match source.kind? with
  | some id => !f.sanitizers.contains id
  | none => true

/-- The frame at a path below what `f` labels: the path of an argument grows, up to `depth`
segments and not through a wildcard, and a kind stays. -/
def below (f : Frame) (path : Path) (depth : Nat) : Frame :=
  match f.label with
  | .kind _ => f
  | .argument index own =>
    { f with label := .argument index (own ++ path.normalize (depth - own.length)) }

end Frame

/-- What is reported about a frame. -/
structure FrameInfo where
  features : OrdSet String
  trace : Trace
  deriving DecidableEq

namespace FrameInfo

instance : EmptyCollection FrameInfo := ⟨⟨∅, []⟩⟩

instance : Inhabited FrameInfo := ⟨∅⟩

/-- Marks taint that crossed a callee of which nothing is known. -/
def viaObscure : String := "via-obscure"

/-- Marks taint of several fields that was merged into their parent. -/
def viaCollapse : String := "via-collapse"

def ofFeatures (features : List String) : FrameInfo := ⟨OrdSet.ofList features, []⟩

/-- Unites the features and keeps the preferred trace. -/
def join (i j : FrameInfo) : FrameInfo where
  features := i.features ∪ j.features
  trace := if Trace.before j.trace i.trace then j.trace else i.trace

/-- Whether joining `i` into `j` brings nothing new. -/
def le (i j : FrameInfo) : Bool := i.features.isSubset j.features && !Trace.before i.trace j.trace

def addFeatures (i : FrameInfo) (features : OrdSet String) : FrameInfo :=
  { i with features := i.features ∪ features }

/-- Puts a call in front of the trace while it is shorter than `limit`. -/
def addStep (i : FrameInfo) (step : Step) (limit : Nat) : FrameInfo :=
  if i.trace.length < limit then { i with trace := step :: i.trace } else i

end FrameInfo

/-- Frames with what is reported about each. -/
abbrev FrameSet := OrdMap Frame FrameInfo

namespace FrameSet

def singleton (f : Frame) (info : FrameInfo) : FrameSet := (∅ : FrameSet).insert f info

/-- Adds a frame; if it is there, its info is joined. -/
def add (s : FrameSet) (f : Frame) (info : FrameInfo) : FrameSet :=
  s.alter f fun own => some (own.elim info (FrameInfo.join · info))

def ofList (frames : List (Frame × FrameInfo)) : FrameSet := OrdMap.ofList FrameInfo.join frames

def join (s t : FrameSet) : FrameSet := OrdMap.union FrameInfo.join s t

/-- Whether adding the frame to `s` brings nothing new. -/
def absorbs (s : FrameSet) (f : Frame) (info : FrameInfo) : Bool :=
  (s.get? f).any (FrameInfo.le info)

/-- Whether joining `s` into `t` brings nothing new. -/
def le (s t : FrameSet) : Bool := s.entries.all fun e => absorbs t e.1 e.2

/-- Changes every frame by `f`, which may drop it; frames that fall together are joined. -/
def mapFrames (f : Frame → FrameInfo → Option (Frame × FrameInfo)) (s : FrameSet) : FrameSet :=
  ofList (s.entries.filterMap fun e => f e.1 e.2)

def addFeature (s : FrameSet) (feature : String) : FrameSet :=
  s.mapValues fun _ info => { info with features := info.features.insert feature }

/-- Puts a call in front of every trace that is shorter than `limit`. -/
def addStep (s : FrameSet) (step : Step) (limit : Nat) : FrameSet :=
  s.mapValues fun _ info => info.addStep step limit

/-- The frames at a path below what the set labels. -/
def below (s : FrameSet) (path : Path) (depth : Nat) : FrameSet :=
  s.mapFrames fun f info => some (f.below path depth, info)

def sources (s : FrameSet) : FrameSet := s.filter fun f _ => !f.isArgument

def arguments (s : FrameSet) : FrameSet := s.filter fun f _ => f.isArgument

/-- The frames of kinds, each with its kind. -/
def kinds (s : FrameSet) : List (KindId × Frame × FrameInfo) :=
  s.entries.filterMap fun e => e.1.kind?.map (·, e.1, e.2)

end FrameSet

end TaintFlow
