import Mathlib.Data.List.Nodup
import TaintFlow.Proofs.TracedFrames

/-!
The analysis of a method under two limits on the length of traces, neither of which is zero. What
the parameters hold at exit is looked at in one way only that depends on traces: whether there are
any. So two walks go on with the same frames and traces in the same places, however long, and what
is inferred and observed differs in traces only (`MethodAnalysis.run_tracing`).
-/

namespace TaintFlow

open FrameInfo (Test)
open FrameSet (TracedAs tracedAs_closed)

/-! ### Sums of observations -/

theorem Observation.ext_of_key {o o' : Observation} (hkey : o.key = o'.key)
    (hcallee : o.callee = o'.callee) (hinfo : o.info = o'.info) (hsources : o.sources = o'.sources)
    (hparameters : o.parameters = o'.parameters) : o = o' := by
  cases o
  cases o'
  cases hkey
  cases hcallee
  cases hinfo
  cases hsources
  cases hparameters
  rfl

namespace Observations

variable {news news' : List Observation} {k : Observation.Key} {o : Observation}

/-- A sum of observations at one sink has the callee of one of them. -/
theorem exists_callee (ho : ((∅ : Observations).addAll news).get? k = some o) :
    o.key = k ∧ ∃ new ∈ news, new.key = o.key ∧ new.callee = o.callee :=
  ⟨keyed_addAll news k o ho,
    forall_addAll_of_key (Q := fun o => ∃ new ∈ news, new.key = o.key ∧ new.callee = o.callee)
      (fun o ho => ⟨o, ho, rfl, rfl⟩) (fun _ _ h _ _ => h) ho⟩

/-- A sum of observations, whose sinks have one callee each, depends on which observations they are
only. -/
theorem addAll_congr (hmem : ∀ o, o ∈ news ↔ o ∈ news')
    (hcallee : ∀ o ∈ news, ∀ o' ∈ news, o.key = o'.key → o.callee = o'.callee) :
    (∅ : Observations).addAll news = (∅ : Observations).addAll news' := by
  -- a question that joins are asked side by side has one answer for both sums
  have hsame (k : Observation.Key) (P : Observation → Prop)
      (hjoin : ∀ o o', P (o.join o') ↔ P o ∨ P o') :
      (∃ o, ((∅ : Observations).addAll news).get? k = some o ∧ P o) ↔
        ∃ o, ((∅ : Observations).addAll news').get? k = some o ∧ P o := by
    simp only [exists_addAll hjoin, hmem]
  refine OrdMap.ext fun k => ?_
  have hlisted := hsame k (fun _ => True) fun _ _ => by simp
  have hinfo (q : Test) := hsame k (fun o => q.passes o.info) fun _ _ => q.passes_join _ _
  have hsources (q : Test) (f : Frame) := hsame k (fun o => o.sources.Passes q f)
    fun _ _ => FrameSet.passes_join
  have hparameters (q : Test) (f : Frame) := hsame k (fun o => o.parameters.Passes q f)
    fun _ _ => FrameSet.passes_join
  cases ho : ((∅ : Observations).addAll news).get? k with
  | none =>
    cases ho' : ((∅ : Observations).addAll news').get? k with
    | none => rfl
    | some o' => simp [ho, ho'] at hlisted
  | some o =>
    cases ho' : ((∅ : Observations).addAll news').get? k with
    | none => simp [ho, ho'] at hlisted
    | some o' =>
      simp only [ho, ho', Option.some.injEq, exists_eq_left'] at hinfo hsources hparameters
      obtain ⟨hkey, own, hown, hownKey, hownCallee⟩ := exists_callee ho
      obtain ⟨hkey', own', hown', hownKey', hownCallee'⟩ := exists_callee ho'
      have hkeys : o.key = o'.key := hkey.trans hkey'.symm
      have hcallees : own.callee = own'.callee := hcallee own hown own' ((hmem own').2 hown')
        (hownKey.trans (hkeys.trans hownKey'.symm))
      rw [hownCallee, hownCallee'] at hcallees
      exact congrArg some (Observation.ext_of_key hkeys hcallees (FrameInfo.ext_of_passes hinfo)
        (FrameSet.ext_of_passes hsources) (FrameSet.ext_of_passes hparameters))

theorem untraced_addAll (news : List Observation) :
    ((∅ : Observations).addAll news).mapValues (fun _ => Observation.untraced) =
      (∅ : Observations).addAll (news.map Observation.untraced) :=
  OrdMap.mapValues_foldl_addKeyed Observation.untraced Observation.key Observation.key
    (fun _ => rfl) Observation.untraced_join news ∅

end Observations

/-! ### Walks -/

namespace Walk

variable {m : Method} {h : Heuristics} {limit limit' : Nat} {f f' : String → Callee} {s t : State}

section

variable (hlimit : 0 < limit) (hlimit' : 0 < limit')
  (hf : ∀ name, (f name).untraced = (f' name).untraced)

include hf

theorem observed_tracing (hs : State.Related TracedAs s t) (position : Nat)
    (instruction : Instruction) :
    (apply ⟨m, h.tracing limit, f⟩ position instruction s).2.map Observation.untraced =
      (apply ⟨m, h.tracing limit', f'⟩ position instruction t).2.map Observation.untraced := by
  cases instruction with
  | call callee args result =>
    have hargs : args.map s.read = args.map t.read := List.map_congr_left fun a _ => hs.read a
    have hcallee := hf callee
    simp only [apply, hargs]
    generalize f callee = known, f' callee = known' at hcallee ⊢
    cases known with
    | obscure =>
      cases known' with
      | obscure => rfl
      | modeled model' => cases hcallee
    | modeled model =>
      cases known' with
      | obscure => cases hcallee
      | modeled model' => exact Call.observe_untraced hs (Callee.modeled.inj hcallee)
  | fresh dest => rfl
  | move dest src => rfl
  | fieldRead dest base field => rfl
  | fieldWrite base field src => rfl

/-- At related events the same is observed but for traces. -/
theorem observedAt_tracing {e e' : Event} (he : e.Related (State.Related TracedAs) e') :
    (observedAt ⟨m, h.tracing limit, f⟩ e).map Observation.untraced =
      (observedAt ⟨m, h.tracing limit', f'⟩ e').map Observation.untraced := by
  cases he with
  | run position instruction hs => exact observed_tracing hf hs position instruction
  | leave value hs => rfl

include hlimit hlimit'

theorem apply_tracing (hs : State.Related TracedAs s t) (position : Nat)
    (instruction : Instruction) :
    State.Related TracedAs (apply ⟨m, h.tracing limit, f⟩ position instruction s).1
      (apply ⟨m, h.tracing limit', f'⟩ position instruction t).1 := by
  have hother := apply_related ⟨m, h, f⟩ tracedAs_closed hs position instruction
  cases instruction with
  | call callee args result =>
    have hargs : args.map s.read = args.map t.read := List.map_congr_left fun a _ => hs.read a
    simp only [apply, hargs]
    exact Call.run_tracing hlimit hlimit' hs (hf callee) result
  | fresh dest => exact hother
  | move dest src => exact hother
  | fieldRead dest base field => exact hother
  | fieldWrite base field src => exact hother

/-- Under either limit a walk goes on with the same frames. -/
theorem lockstep_tracing :
    Lockstep ⟨m, h.tracing limit, f⟩ ⟨m, h.tracing limit', f'⟩ (State.Related TracedAs) where
  depth := rfl
  passes := rfl
  apply position instruction _ _ hs := apply_tracing hlimit hlimit' hf hs position instruction
  join hs hs' := hs.join tracedAs_closed hs' _
  settled_left := State.related_join_left_of_le
  settled_right := State.related_join_right_of_le

theorem events_tracing (body : Body) :
    Matched (State.Related TracedAs) (events ⟨m, h.tracing limit, f⟩ body)
      (events ⟨m, h.tracing limit', f'⟩ body) :=
  (lockstep_tracing hlimit hlimit' hf).events_matched (.refl tracedAs_closed _) body

/-- Under either limit the same frames are handed back. -/
theorem treeAt_tracing (body : Body) (root : Root) :
    TaintTree.Related TracedAs
      (treeAt ⟨m, h.tracing limit, f⟩ (gather ⟨m, h.tracing limit, f⟩ body) root)
      (treeAt ⟨m, h.tracing limit', f'⟩ (gather ⟨m, h.tracing limit', f'⟩ body) root) := by
  have hes := events_tracing (m := m) (h := h) hlimit hlimit' hf body
  have hforth := treeAt_forth tracedAs_closed (v := ⟨m, h.tracing limit, f⟩)
    (w := ⟨m, h.tracing limit', f'⟩) rfl rfl hes
  have hback := treeAt_back tracedAs_closed (v := ⟨m, h.tracing limit, f⟩)
    (w := ⟨m, h.tracing limit', f'⟩) rfl rfl hes
  refine Node.related_of_cover tracedAs_closed h.maxFieldDepth (TaintTree.ordered _) (TaintTree.ordered _)
    (fun names => ?_) fun names => FrameSet.tracedAs_iff_passes.2 fun q hq f => ?_
  · let reaches : TaintTree.Test h.maxFieldDepth := .reaches _ names
    exact ⟨hforth reaches reaches (fun _ _ h => h.reaches.1) root,
      hback reaches reaches (fun _ _ h => h.reaches.2) root⟩
  · let passes : TaintTree.Test h.maxFieldDepth :=
      .atChain _ names (FrameSet.Passes · q f) fun _ _ => FrameSet.passes_join
    have hpasses (t t' : TaintTree) (ht : TaintTree.Related TracedAs t t') :
        passes.passes t ↔ passes.passes t' :=
      FrameSet.tracedAs_iff_passes.1 (Node.Related.cover tracedAs_closed ht names) q hq f
    exact ⟨hforth passes passes (fun t t' ht => (hpasses t t' ht).1) root,
      hback passes passes (fun t t' ht => (hpasses t t' ht).2) root⟩

/-- Under either limit the same is observed but for traces. -/
theorem observations_tracing {body : Body} (hcalls : (body.calls.map Prod.fst).Nodup) :
    (gather ⟨m, h.tracing limit, f⟩ body).observations.mapValues (fun _ => Observation.untraced) =
      (gather ⟨m, h.tracing limit', f'⟩ body).observations.mapValues
        fun _ => Observation.untraced := by
  have hes := events_tracing (m := m) (h := h) hlimit hlimit' hf body
  rw [observations_gather, observations_gather, Observations.untraced_addAll,
    Observations.untraced_addAll, List.map_flatMap, List.map_flatMap]
  refine Observations.addAll_congr (fun o => ?_) fun o ho o' ho' hkey => ?_
  · simp only [List.mem_flatMap]
    constructor
    · rintro ⟨e, he, ho⟩
      obtain ⟨e', he', hrel⟩ := hes.forth e he
      exact ⟨e', he', observedAt_tracing hf hrel ▸ ho⟩
    · rintro ⟨e', he', ho⟩
      obtain ⟨e, he, hrel⟩ := hes.back e' he'
      exact ⟨e, he, observedAt_tracing hf hrel ▸ ho⟩
  · have hcall {o : Observation} (ho : o ∈ (events ⟨m, h.tracing limit, f⟩ body).flatMap fun e =>
        (observedAt ⟨m, h.tracing limit, f⟩ e).map Observation.untraced) :
        (o.site.position, o.callee) ∈ body.calls := by
      obtain ⟨e, he, ho⟩ := List.mem_flatMap.1 ho
      obtain ⟨own, hown, rfl⟩ := List.mem_map.1 ho
      have hcall := call_of_mem_observedAt he hown
      exact hcall
    have hsite : o.site = o'.site := congrArg Prod.fst hkey
    exact congrArg Prod.snd
      (List.inj_on_of_nodup_map hcalls (hcall ho) (hcall ho') (congrArg CallSite.position hsite))

end

end Walk

/-! ### Inferred models -/

namespace MethodAnalysis

open Walk

/-- Entries at ports with the same frames, the same features, and traces in the same places. -/
abbrev Handed : Port × Frame × FrameInfo → Port × Frame × FrameInfo → Prop :=
  fun e e' => e.1 = e'.1 ∧ e.2.1 = e'.2.1 ∧ e.2.2.TracedAs e'.2.2

theorem untracedFrames_eq {es es' : List (Port × Frame × FrameInfo)}
    (h : List.Forall₂ Handed es es') : untracedFrames es = untracedFrames es' := by
  unfold untracedFrames
  rw [← List.forall₂_eq_eq_eq, List.forall₂_map_left_iff, List.forall₂_map_right_iff]
  refine h.imp fun e e' ⟨hport, hframe, hinfo⟩ => ?_
  rw [hport, hframe, hinfo.untraced]

theorem framesBelow_tracedAs {t t' : TaintTree} (h : TaintTree.Related TracedAs t t')
    (root : Root) : List.Forall₂ Handed (framesBelow root t) (framesBelow root t') := by
  refine List.rel_flatMap (h.nodes tracedAs_closed) fun node node' hnode => ?_
  obtain ⟨path, fs⟩ := node
  obtain ⟨path', fs'⟩ := node'
  obtain ⟨rfl, hfs⟩ : path = path' ∧ fs.TracedAs fs' := hnode
  rw [List.forall₂_map_left_iff, List.forall₂_map_right_iff]
  exact hfs.entries.imp fun e e' he => ⟨rfl, he.1, he.2⟩

def isHeld (e : Port × Frame × FrameInfo) : Bool :=
  if e.2.1.isArgument then !isInitial e.1 e.2.1 else !e.2.2.trace.isEmpty

theorem isHeld_eq {e e' : Port × Frame × FrameInfo} (h : Handed e e') : isHeld e = isHeld e' := by
  obtain ⟨port, f, info⟩ := e
  obtain ⟨port', f', info'⟩ := e'
  obtain ⟨rfl, rfl, hinfo⟩ : port = port' ∧ f = f' ∧ info.TracedAs info' := h
  have htrace : info.trace.isEmpty = info'.trace.isEmpty := by
    rw [Bool.eq_iff_iff, List.isEmpty_iff, List.isEmpty_iff, hinfo.traced]
  simp only [isHeld, htrace]

/-- What is handed back at the result and at the parameters, one after another. -/
theorem handedBack_eq (w : Walk) (g : Walk.Gathered) :
    handedBack w g = framesBelow .result (w.treeAt g .result) ++
      (List.range w.method.parameters.length).flatMap fun index =>
        (framesBelow (.argument index) (w.treeAt g (.argument index))).filter isHeld := by
  unfold handedBack treeAt
  cases g.exit with
  | none =>
    -- nothing was left, so that the parameters hold nothing at exit
    exact congrArg (_ ++ ·) (List.flatMap_eq_nil_iff.2 fun _ _ => rfl).symm
  | some exit => rfl

/-- The routes of parameters do not depend on traces. -/
theorem routes_untracedFrames (handed : List (Port × Frame × FrameInfo)) :
    routes (untracedFrames handed) = routes handed := by
  unfold routes untracedFrames
  generalize (∅ : OrdMap Route Inputs) = rs
  induction handed generalizing rs with
  | nil => rfl
  | cons e handed ih =>
    obtain ⟨port, ⟨label, transforms, sanitizers⟩, info⟩ := e
    cases label with
    | kind k => exact ih rs
    | argument index path => exact ih _

/-- A model is inferred from what is handed back and observed, and traces go into traces only. -/
theorem infer_untraced {w w' : Walk} {g g' : Gathered}
    (htransforms : w.heuristics.maxTransformLength = w'.heuristics.maxTransformLength)
    (hpaths : w.heuristics.maxInputPathLeaves = w'.heuristics.maxInputPathLeaves)
    (hhanded : untracedFrames (handedBack w g) = untracedFrames (handedBack w' g'))
    (hobservations : g.observations.values.map Observation.untraced =
      g'.observations.values.map Observation.untraced) :
    (infer w g).untraced = (infer w' g').untraced := by
  have hkinds (handed : List (Port × Frame × FrameInfo)) :
      untracedFrames (handed.filter fun e => !e.2.1.isArgument) =
        (untracedFrames handed).filter fun e => !e.2.1.isArgument := by
    unfold untracedFrames
    rw [List.filter_map]
    rfl
  have hgenerations : (infer w g).generations.untraced = (infer w' g').generations.untraced := by
    have hframes := (hkinds (handedBack w g)).trans
      ((congrArg (List.filter _) hhanded).trans (hkinds (handedBack w' g')).symm)
    exact (Model.untraced_ofFrames _).trans
      ((congrArg Model.ofFrames hframes).trans (Model.untraced_ofFrames _).symm)
  have hatParameters (os : List Observation) (limit : Nat) :
      untracedFrames (os.flatMap fun o => o.atParameters o.sink.label limit) =
        (os.map Observation.untraced).flatMap fun o => o.atParameters o.sink.label limit := by
    rw [untracedFrames_flatMap, List.flatMap_map]
    exact List.flatMap_congr fun o _ => (o.atParameters_untraced o.sink.label limit).symm
  have hsinks : (infer w g).sinks.untraced = (infer w' g').sinks.untraced := by
    refine (Model.untraced_ofFrames _).trans (Eq.trans ?_ (Model.untraced_ofFrames _).symm)
    rw [hatParameters, hatParameters, hobservations, htransforms]
  have hpropagations : (infer w g).propagations = (infer w' g').propagations := by
    have hroutes : routes (handedBack w g) = routes (handedBack w' g') := by
      rw [← routes_untracedFrames (handedBack w g), hhanded, routes_untracedFrames]
    simp only [infer, hroutes, hpaths]
  unfold Model.untraced
  rw [hgenerations, hsinks, hpropagations]
  rfl

variable {m : Method} {h : Heuristics} {limit limit' : Nat} {f f' : String → Callee}

section

variable (hlimit : 0 < limit) (hlimit' : 0 < limit')
  (hf : ∀ name, (f name).untraced = (f' name).untraced)

include hlimit hlimit' hf

/-- Under either limit the same is handed back but for traces. -/
theorem handedBack_tracing (body : Body) :
    untracedFrames (handedBack ⟨m, h.tracing limit, f⟩ (gather ⟨m, h.tracing limit, f⟩ body)) =
      untracedFrames
        (handedBack ⟨m, h.tracing limit', f'⟩ (gather ⟨m, h.tracing limit', f'⟩ body)) := by
  have htree := treeAt_tracing (m := m) (h := h) hlimit hlimit' hf body
  refine untracedFrames_eq ?_
  rw [handedBack_eq, handedBack_eq]
  refine List.rel_append (framesBelow_tracedAs (htree .result) .result) ?_
  refine List.rel_flatMap (List.forall₂_same.2 fun _ _ => rfl) fun index index' hindex => ?_
  obtain rfl : index = index' := hindex
  refine List.rel_filter (fun e e' he => ?_)
    (framesBelow_tracedAs (htree (.argument index)) (.argument index))
  show isHeld e = true ↔ isHeld e' = true
  rw [isHeld_eq he]

/-- Under either limit on the length of traces a method is found to do the same, and the same is
observed in it, but for traces. -/
theorem run_tracing (hcalls : (m.calls.map Prod.fst).Nodup) :
    (run ⟨m, h.tracing limit, f⟩).model.untraced = (run ⟨m, h.tracing limit', f'⟩).model.untraced ∧
      (run ⟨m, h.tracing limit, f⟩).observations.map Observation.untraced =
        (run ⟨m, h.tracing limit', f'⟩).observations.map Observation.untraced := by
  unfold run
  cases hbody : m.body with
  | none => exact ⟨rfl, rfl⟩
  | some body =>
    have hhanded := handedBack_tracing (m := m) (h := h) hlimit hlimit' hf body
    have hobservations : (gather ⟨m, h.tracing limit, f⟩ body).observations.values.map
        Observation.untraced =
          (gather ⟨m, h.tracing limit', f'⟩ body).observations.values.map Observation.untraced := by
      rw [← OrdMap.values_mapValues, ← OrdMap.values_mapValues,
        observations_tracing hlimit hlimit' hf]
      simpa [Method.calls, hbody] using hcalls
    exact ⟨infer_untraced rfl rfl hhanded hobservations, hobservations⟩

end

end MethodAnalysis

end TaintFlow
