import Mathlib.Data.List.Basic
import TaintFlow.Effect
import TaintFlow.Matching
import TaintFlow.MethodAnalysis
import TaintFlow.Proofs.Containers

/-!
What is left without traces: frames, models, observations and issues with the same features and
empty traces. Joins keep the shorter of two traces and unite all else, hence a join without traces
is the join of what both sides are without theirs.
-/

namespace TaintFlow

/-! ### Frames -/

def FrameInfo.untraced (i : FrameInfo) : FrameInfo := { i with trace := [] }

theorem FrameInfo.untraced_join (i j : FrameInfo) :
    (i.join j).untraced = i.untraced.join j.untraced := rfl

namespace FrameSet

def untraced (s : FrameSet) : FrameSet := s.mapValues fun _ i => i.untraced

variable (s t : FrameSet)

theorem untraced_add (f : Frame) (info : FrameInfo) :
    (s.add f info).untraced = s.untraced.add f info.untraced :=
  OrdMap.mapValues_alter (fun own => by cases own <;> rfl) s

theorem untraced_join : (s.join t).untraced = s.untraced.join t.untraced :=
  OrdMap.mapValues_union (fun _ => FrameInfo.untraced_join) s t

theorem isEmpty_untraced : OrdMap.isEmpty s.untraced = OrdMap.isEmpty s := OrdMap.isEmpty_mapValues s

theorem filter_untraced (p : Frame → Bool) :
    OrdMap.filter (fun f _ => p f) s.untraced = untraced (OrdMap.filter (fun f _ => p f) s) :=
  OrdMap.filter_mapValues p s

theorem sources_untraced : s.untraced.sources = s.sources.untraced := s.filter_untraced _

theorem arguments_untraced : s.untraced.arguments = s.arguments.untraced := s.filter_untraced _

theorem kinds_untraced :
    s.untraced.kinds = s.kinds.map fun e => (e.1, e.2.1, e.2.2.untraced) := by
  unfold kinds
  rw [List.map_filterMap]
  show (s.entries.map fun e => (e.1, e.2.untraced)).filterMap _ = _
  rw [List.filterMap_map]
  refine List.filterMap_congr fun e _ => ?_
  cases hkind : e.1.kind? <;> simp [hkind]

end FrameSet

def untracedFrames (frames : List (Port × Frame × FrameInfo)) : List (Port × Frame × FrameInfo) :=
  frames.map fun e => (e.1, e.2.1, e.2.2.untraced)

theorem untracedFrames_flatMap {α : Type} (f : α → List (Port × Frame × FrameInfo)) (as : List α) :
    untracedFrames (as.flatMap f) = as.flatMap fun a => untracedFrames (f a) := List.map_flatMap

/-! ### Models -/

namespace PortFrames

def untraced (m : PortFrames) : PortFrames := m.mapValues fun _ s => FrameSet.untraced s

theorem untraced_join (m n : PortFrames) : (m.join n).untraced = m.untraced.join n.untraced :=
  OrdMap.mapValues_union (fun _ => FrameSet.untraced_join) m n

theorem untraced_add (m : PortFrames) (port : Port) (f : Frame) (info : FrameInfo) :
    (m.add port f info).untraced = m.untraced.add port f info.untraced :=
  OrdMap.mapValues_update (g := fun _ => FrameSet.untraced) (FrameSet.add · f info)
    (FrameSet.add · f info.untraced) ∅ (fun own => own.untraced_add f info) m

end PortFrames

namespace Model

def untraced (model : Model) : Model :=
  { model with
    generations := model.generations.untraced
    parameterSources := model.parameterSources.untraced
    sinks := model.sinks.untraced }

theorem propagations_eq_of_untraced {m n : Model} (h : m.untraced = n.untraced) :
    m.propagations = n.propagations := by
  have hpropagations := congrArg Model.propagations h
  exact hpropagations

theorem untraced_join (m n : Model) : (m.join n).untraced = m.untraced.join n.untraced := by
  simp only [untraced, join, PortFrames.untraced_join]

theorem untraced_foldl_add (frames : List (Port × Frame × FrameInfo)) (m : PortFrames) :
    (frames.foldl (fun m e => m.add e.1 e.2.1 e.2.2) m).untraced =
      (untracedFrames frames).foldl (fun m e => m.add e.1 e.2.1 e.2.2) m.untraced := by
  induction frames generalizing m with
  | nil => rfl
  | cons e frames ih =>
    rw [List.foldl_cons, ih, PortFrames.untraced_add]
    rfl

theorem untraced_ofFrames (frames : List (Port × Frame × FrameInfo)) :
    (ofFrames frames).untraced = ofFrames (untracedFrames frames) :=
  untraced_foldl_add frames ∅

end Model

def Callee.untraced : Callee → Callee
  | .modeled model => .modeled model.untraced
  | .obscure => .obscure

/-! ### Observations -/

namespace Observation

def untraced (o : Observation) : Observation :=
  { o with
    info := o.info.untraced
    sources := o.sources.untraced
    parameters := o.parameters.untraced }

theorem untraced_join (o o' : Observation) :
    (o.join o').untraced = o.untraced.join o'.untraced := by
  simp only [untraced, join, FrameInfo.untraced_join, FrameSet.untraced_join]

theorem atParameters_untraced (o : Observation) (label : Label) (limit : Nat) :
    o.untraced.atParameters label limit = untracedFrames (o.atParameters label limit) := by
  unfold atParameters untracedFrames
  rw [List.map_filterMap]
  show (o.parameters.entries.map fun e => (e.1, e.2.untraced)).filterMap _ = _
  rw [List.filterMap_map]
  refine List.filterMap_congr fun e _ => ?_
  obtain ⟨⟨label, transforms, sanitizers⟩, info⟩ := e
  cases label <;> rfl

end Observation

/-! ### Issues -/

def Issue.untraced (i : Issue) : Issue := { i with traces := ∅ }

def DeferredIssue.untraced (d : DeferredIssue) : DeferredIssue := { d with issue := d.issue.untraced }

def Finding.untraced : Finding → Finding
  | .issue i => .issue i.untraced
  | .deferred d => .deferred d.untraced

theorem Issues.untraced_addAll (news : List Issue) (is : Issues) :
    (is.addAll news).mapValues (fun _ => Issue.untraced) =
      Issues.addAll (is.mapValues fun _ => Issue.untraced) (news.map Issue.untraced) :=
  OrdMap.mapValues_foldl_addKeyed Issue.untraced Issue.key Issue.key (fun _ => rfl) (fun _ _ => rfl)
    news is

/-- A chain in front of the traces is gone with them. -/
theorem EffectIndex.gate_untraced (e : EffectIndex) (ds : List DeferredIssue) :
    e.gate (ds.map DeferredIssue.untraced) = (e.gate ds).map Issue.untraced := by
  unfold gate
  rw [List.filterMap_map, List.map_filterMap]
  refine List.filterMap_congr fun d _ => ?_
  show (e.chain? d.method d.effectSources).map _ =
    ((e.chain? d.method d.effectSources).map _).map Issue.untraced
  cases e.chain? d.method d.effectSources <;> rfl

namespace Matched

def untraced (v : Matched) : Matched :=
  ⟨v.findings.map Finding.untraced, untracedFrames v.triggered⟩

theorem issues_untraced (v : Matched) : v.untraced.issues = v.issues.map Issue.untraced := by
  unfold issues untraced
  rw [List.filterMap_map, List.map_filterMap]
  refine List.filterMap_congr fun f _ => ?_
  cases f <;> rfl

theorem deferred_untraced (v : Matched) :
    v.untraced.deferred = v.deferred.map DeferredIssue.untraced := by
  unfold deferred untraced
  rw [List.filterMap_map, List.map_filterMap]
  refine List.filterMap_congr fun f _ => ?_
  cases f <;> rfl

end Matched

end TaintFlow
