import TaintFlow.Proofs.MeetingHalves
import TaintFlow.Proofs.RelocatedMatching
import TaintFlow.Proofs.Untraced

/-!
Matching without traces. Traces are reported and never looked at by a rule: with observations whose
traces are left out, a sink has the same hits, halves meet and wait in the same way, and the same
sinks are triggered, all without traces. So observations that differ in traces only come to findings
and triggered sinks that differ in traces only (`Matcher.check_untraced`).
-/

namespace TaintFlow

/-! ### Hits and waiting halves -/

def Hit.untraced (h : Hit) : Hit :=
  { h with sources := h.sources.map fun source => (source.1, source.2.untraced) }

def HalfHit.untraced (h : HalfHit) : HalfHit := { h with sources := h.sources.untraced }

def Stash.untraced (s : Stash) : Stash := ⟨s.halves.mapValues fun _ sources => sources.untraced⟩

theorem Stash.fulfill_untraced (s : Stash) (rule : Int) (site : CallSite) (label other : String)
    (sources : FrameSet) :
    s.untraced.fulfill rule site label other sources.untraced =
      ((s.fulfill rule site label other sources).1.map fun met => (met.1.untraced, met.2.untraced),
        (s.fulfill rule site label other sources).2.untraced) := by
  have hempty : FrameSet.untraced ∅ = ∅ := rfl
  unfold Stash.fulfill Stash.untraced
  simp only [OrdMap.get?_mapValues]
  cases s.halves.get? (rule, site, other) with
  | none =>
    simp only [Option.map_none, Prod.mk.injEq, true_and, Stash.mk.injEq]
    exact (OrdMap.mapValues_update (g := fun _ => FrameSet.untraced) (FrameSet.join · sources)
      (FrameSet.join · sources.untraced) ∅ (fun own => own.untraced_join sources) s.halves).symm
  | some waiting =>
    simp only [Option.map_some, Prod.mk.injEq, Option.some.injEq, Stash.mk.injEq, and_true]
    rw [← OrdMap.mapValues_erase, ← OrdMap.mapValues_erase, FrameSet.untraced_join, ← hempty,
      OrdMap.getD_mapValues]
    exact ⟨rfl, rfl⟩

namespace Matcher

variable (m : Matcher) (o : Observation) (s : Stash)

theorem meeting_untraced (rule : Rule) (accepted : OrdSet KindId) :
    meeting rule accepted o.untraced = (meeting rule accepted o).untraced :=
  o.sources.filter_untraced fun f => f.kind?.any accepted.contains && suits rule f o

theorem directHits_untraced (sink : KindId) :
    m.directHits o.untraced sink = (m.directHits o sink).map Hit.untraced := by
  have hkinds : o.untraced.sources.kinds =
      o.sources.kinds.map fun e => (e.1, e.2.1, e.2.2.untraced) := o.sources.kinds_untraced
  unfold directHits
  rw [hkinds, List.flatMap_map, List.map_flatMap]
  refine List.flatMap_congr fun e _ => ?_
  rw [List.map_map]
  rfl

theorem triggeredHits_untraced (half : Half) (code : Int) :
    m.triggeredHits o.untraced half code = (m.triggeredHits o half code).map Hit.untraced := by
  unfold triggeredHits
  cases m.rules.get? code with
  | none => rfl
  | some rule =>
    simp only [meeting_untraced, FrameSet.kinds_untraced, List.map_map]
    rfl

theorem halfHits_untraced (sink : KindId) (half : Half) :
    m.halfHits o.untraced sink half = (m.halfHits o sink half).map HalfHit.untraced := by
  rw [halfHits_eq, halfHits_eq, List.map_filterMap]
  refine List.filterMap_congr fun rule _ => ?_
  unfold halfHit?
  cases rule.labelSources? half.label with
  | none => rfl
  | some accepted =>
    cases rule.otherLabel? half.label with
    | none => rfl
    | some other =>
      simp only [Option.bind_eq_bind, Option.bind_some, meeting_untraced, FrameSet.isEmpty_untraced]
      split <;> rfl

theorem meetHalf_untraced (site : CallSite) (h : HalfHit) :
    meetHalf site h.untraced s.untraced =
      ((meetHalf site h s).1.map Hit.untraced, (meetHalf site h s).2.untraced) := by
  have hmet := s.fulfill_untraced h.rule.code site h.label h.other h.sources
  have hrule : h.untraced.rule = h.rule := rfl
  unfold meetHalf
  rw [hrule, show h.untraced.label = h.label from rfl, show h.untraced.other = h.other from rfl,
    show h.untraced.sources = h.sources.untraced from rfl, hmet]
  rcases s.fulfill h.rule.code site h.label h.other h.sources with ⟨_ | ⟨own, other⟩, rest⟩
  · rfl
  · simp [Hit.untraced, FrameSet.kinds_untraced, Function.comp_def]

theorem hits_untraced :
    m.hits o.untraced s.untraced = ((m.hits o s).1.map Hit.untraced, (m.hits o s).2.untraced) := by
  have hsink : o.untraced.sink = o.sink := rfl
  have hsite : o.untraced.site = o.site := rfl
  unfold hits
  rw [hsink, hsite]
  cases o.sink.kind? with
  | none => rfl
  | some sink =>
    simp only [directHits_untraced, triggeredHits_untraced, halfHits_untraced]
    rcases m.kinds.get? sink with _ | ⟨name⟩ | ⟨half⟩ | ⟨half, code⟩
    · rfl
    · rfl
    · have hturn := inTurn_map (meetHalf o.site) (meetHalf o.site) HalfHit.untraced Hit.untraced
        (R := fun s t => t = s.untraced) (m.halfHits o sink half)
        (fun h _ s t hst => by simp [hst, meetHalf_untraced]) (s := s) rfl
      exact Prod.ext hturn.1 hturn.2
    · rfl

/-! ### Findings -/

variable (method : Method) (os : List Observation)

theorem finding_untraced (o : Observation) (h : Hit) :
    (m.finding method o.untraced h.untraced).untraced = (m.finding method o h).untraced := by
  have hissue : (m.issue method o.untraced h.untraced).untraced =
      (m.issue method o h).untraced := by
    simp only [issue, Issue.untraced, Hit.untraced, List.map_map, List.foldl_map]
    rfl
  have hrule : h.untraced.rule = h.rule := rfl
  unfold finding
  rw [hrule]
  cases h.rule.effectSources with
  | none => exact congrArg Finding.issue hissue
  | some effectSources =>
    exact congrArg (fun i => Finding.deferred ⟨method.id, effectSources, i⟩) hissue

theorem hitsInTurn_untraced (s : Stash) :
    (m.hitsInTurn (os.map Observation.untraced) s.untraced).1 =
      (m.hitsInTurn os s).1.map fun e => (e.1.untraced, e.2.untraced) := by
  refine (inTurn_map _ _ Observation.untraced
    (fun e : Observation × Hit => (e.1.untraced, e.2.untraced))
    (R := fun s t => t = s.untraced) os (fun o _ s t hst => ?_) rfl).1
  subst hst
  rw [hits_untraced]
  exact ⟨by rw [List.map_map, List.map_map]; rfl, rfl⟩

/-! ### Triggered sinks -/

theorem labelsMet_untraced (o : Observation) : m.labelsMet o.untraced = m.labelsMet o := by
  have hhalf : m.half? o.untraced = m.half? o := rfl
  unfold labelsMet
  rw [hhalf]
  cases m.half? o with
  | none => rfl
  | some half =>
    simp only [halfHits_untraced, List.map_map]
    rfl

theorem metLabels_untraced : m.metLabels (os.map Observation.untraced) = m.metLabels os := by
  rw [metLabels_eq, metLabels_eq, List.flatMap_map]
  exact congrArg OrdSet.ofList (List.flatMap_congr fun o _ => m.labelsMet_untraced o)

theorem triggeredSinks_untraced (met : OrdSet (Int × CallSite × String)) (o : Observation) :
    m.triggeredSinks met o.untraced = untracedFrames (m.triggeredSinks met o) := by
  have hhalf : m.half? o.untraced = m.half? o := rfl
  rw [triggeredSinks_eq, triggeredSinks_eq, hhalf]
  cases m.half? o with
  | none => rfl
  | some half =>
    unfold untracedFrames
    rw [List.map_flatMap]
    refine List.flatMap_congr fun rule _ => ?_
    unfold sinksOfRule
    rw [show o.untraced.site = o.site from rfl]
    split
    · cases m.kinds.findTriggered? half.1 rule.code with
      | none => rfl
      | some triggered => exact o.atParameters_untraced (.kind triggered) m.maxTransformLength
    · rfl

/-- Without traces in what is observed there are none in the findings and triggered sinks, and
nothing else changes. -/
theorem check_map_untraced :
    (m.check method (os.map Observation.untraced) ∅).1.untraced =
      (m.check method os ∅).1.untraced := by
  have hfindings (os : List Observation) (s : Stash) :
      (m.check method os s).1.findings =
        (m.hitsInTurn os (s.clear method.id)).1.map fun e => m.finding method e.1 e.2 :=
    congrArg Prod.fst (m.inTurn_findings method os (s.clear method.id))
  have htriggered : (os.map Observation.untraced).flatMap
      (m.triggeredSinks (m.metLabels (os.map Observation.untraced))) =
        untracedFrames (os.flatMap (m.triggeredSinks (m.metLabels os))) := by
    unfold untracedFrames
    rw [metLabels_untraced, List.flatMap_map, List.map_flatMap]
    exact List.flatMap_congr fun o _ => m.triggeredSinks_untraced _ o
  refine congrArg₂ Matched.mk ?_ ?_
  · have hclear : (∅ : Stash).clear method.id = Stash.untraced ((∅ : Stash).clear method.id) := rfl
    rw [hfindings, hfindings, hclear, hitsInTurn_untraced, List.map_map, List.map_map,
      List.map_map]
    exact List.map_congr_left fun e _ => m.finding_untraced method e.1 e.2
  · show untracedFrames ((os.map Observation.untraced).flatMap _) = _
    rw [htriggered]
    unfold untracedFrames
    rw [List.map_map]
    rfl

/-- Observations that differ in traces only come to what differs in traces only. -/
theorem check_untraced {os os' : List Observation}
    (hos : os.map Observation.untraced = os'.map Observation.untraced) :
    (m.check method os ∅).1.untraced = (m.check method os' ∅).1.untraced := by
  rw [← check_map_untraced, hos, check_map_untraced]

end Matcher

end TaintFlow
