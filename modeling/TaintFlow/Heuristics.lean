import TaintFlow.Json.Decode

/-!
The thresholds of an analysis. A document may leave out any member, and none of the thresholds that
bound an iteration or a shape may be zero.
-/

namespace TaintFlow

structure Heuristics where
  /-- Inferred input paths below one path before they are replaced by it. -/
  maxInputPathLeaves : Nat := 4
  /-- Leaves of an output before they are merged into their parent. -/
  maxOutputPathLeaves : Nat := 4
  /-- Fields of a chain that are told apart. -/
  maxFieldDepth : Nat := 4
  /-- Transforms recorded on a frame. -/
  maxTransformLength : Nat := 8
  /-- Passes over a loop body. -/
  maxLoopIterations : Nat := 20
  /-- Passes over the methods of a recursive component. -/
  maxIterations : Nat := 150
  /-- Calls kept in a trace. -/
  maxTraceLength : Nat := 32
  /-- The time budget of an analysis in seconds. -/
  timeoutSeconds : Option Nat := none
  threads : Option Nat := none
  deriving DecidableEq

namespace Heuristics

def default : Heuristics := {}

/-- The members that may not be zero, in the order in which they are checked. -/
def positive (h : Heuristics) : List (String × Nat) :=
  [("max_input_path_leaves", h.maxInputPathLeaves),
    ("max_output_path_leaves", h.maxOutputPathLeaves), ("max_field_depth", h.maxFieldDepth),
    ("max_transform_length", h.maxTransformLength),
    ("max_loop_iterations", h.maxLoopIterations), ("max_iterations", h.maxIterations)] ++
    (h.threads.map ("threads", ·)).toList

/-- Refuses the first member that is zero and may not be. -/
def validate (h : Heuristics) : Except ConfigError Heuristics :=
  match h.positive.find? fun m => m.2 == 0 with
  | some (name, _) => throw (.invalidHeuristics (.zero name))
  | none => return h

def memberNames : List String :=
  ["max_input_path_leaves", "max_output_path_leaves", "max_field_depth", "max_transform_length",
    "max_loop_iterations", "max_iterations", "max_trace_length", "timeout_seconds", "threads"]

def decode (v : Json) : Decode Heuristics := do
  let ms ← v.asRecord memberNames
  ms.allowOnly memberNames
  let count (name : String) (default : Nat) : Decode Nat :=
    return (← ms.take? name (Json.asNat 64)).getD default
  return {
    maxInputPathLeaves := ← count "max_input_path_leaves" default.maxInputPathLeaves
    maxOutputPathLeaves := ← count "max_output_path_leaves" default.maxOutputPathLeaves
    maxFieldDepth := ← count "max_field_depth" default.maxFieldDepth
    maxTransformLength := ← count "max_transform_length" default.maxTransformLength
    maxLoopIterations := ← count "max_loop_iterations" default.maxLoopIterations
    maxIterations := ← count "max_iterations" default.maxIterations
    maxTraceLength := ← count "max_trace_length" default.maxTraceLength
    timeoutSeconds := ← ms.takeNullable? "timeout_seconds" (Json.asNat 64)
    threads := ← ms.takeNullable? "threads" (Json.asNat 64) }

def encode (h : Heuristics) : Json :=
  .obj [("max_input_path_leaves", .nat h.maxInputPathLeaves),
    ("max_output_path_leaves", .nat h.maxOutputPathLeaves),
    ("max_field_depth", .nat h.maxFieldDepth), ("max_transform_length", .nat h.maxTransformLength),
    ("max_loop_iterations", .nat h.maxLoopIterations), ("max_iterations", .nat h.maxIterations),
    ("max_trace_length", .nat h.maxTraceLength),
    ("timeout_seconds", Json.ofOption Json.nat h.timeoutSeconds),
    ("threads", Json.ofOption Json.nat h.threads)]

/-- Whether the time budget is used up after some whole seconds. -/
def timeIsUp (h : Heuristics) (seconds : Nat) : Bool := h.timeoutSeconds.any (· ≤ seconds)

end Heuristics

end TaintFlow
