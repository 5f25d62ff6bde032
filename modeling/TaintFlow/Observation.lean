import TaintFlow.CallSite
import TaintFlow.Frame

/-!
Observations say which frames reached one sink of a call. The rules are matched against them, and
the sinks of a method are inferred from them: where a parameter reaches a sink, a caller of the
method meets that sink at the parameter (`Observation.atParameters`).
-/

namespace TaintFlow

/-- What reached one sink at one port of a call. -/
structure Observation where
  site : CallSite
  callee : String
  /-- The port of the callee that holds the sink. -/
  port : Port
  /-- The sink as the callee declares it. -/
  sink : Frame
  /-- What is reported about the sink; its trace starts with the call. -/
  info : FrameInfo
  /-- The kinds that reached the port and pass the sanitizers of the sink. -/
  sources : FrameSet
  /-- The parameters of the calling method that reached the port. -/
  parameters : FrameSet
  deriving DecidableEq

namespace Observation

/-- Observations with the same key are of the same sink. -/
abbrev Key := CallSite × Port × Frame

def key (o : Observation) : Key := (o.site, o.port, o.sink)

/-- Unites what two observations of one sink saw. -/
def join (o o' : Observation) : Observation :=
  { o with
    info := o.info.join o'.info
    sources := o.sources.join o'.sources
    parameters := o.parameters.join o'.parameters }

/-- The sinks with a label that callers of the observing method meet, one at every parameter that
reached the observed sink. The transforms on the way to it come first, and at most `limit` are
kept. -/
def atParameters (o : Observation) (label : Label) (limit : Nat) :
    List (Port × Frame × FrameInfo) :=
  o.parameters.entries.filterMap fun (f, info) =>
    match f.label with
    | .kind _ => none
    | .argument index path =>
      some
        (⟨.argument index, path⟩,
          { label
            transforms := (f.transforms ++ o.sink.transforms).take limit
            sanitizers := f.sanitizers ∪ o.sink.sanitizers },
          o.info.addFeatures info.features)

end Observation

/-- The observations of one method, one for every sink. -/
abbrev Observations := OrdMap Observation.Key Observation

namespace Observations

/-- Adds an observation, or joins it into the one of the same sink. -/
def add (os : Observations) (o : Observation) : Observations :=
  os.alter o.key fun own => some (own.elim o (Observation.join · o))

def addAll (os : Observations) (news : List Observation) : Observations := news.foldl add os

end Observations

end TaintFlow
