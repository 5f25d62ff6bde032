import TaintFlow.Proofs.PointwiseJoins
import TaintFlow.Proofs.Untraced

/-!
Frames under two limits on the length of traces, neither of which is zero. A call is put in front of
a trace that is shorter than the limit, so that under either limit what a call brings has a trace.
Hence a call leads from sets with the same frames, the same features and traces at the same frames,
however long (`FrameSet.TracedAs`), to such sets, and what is observed at it differs in traces only
(`Call.run_tracing`, `Call.observe_untraced`).
-/

namespace TaintFlow

open FrameInfo (Test)

/-! ### Infos -/

namespace FrameInfo

/-- The same features, and a trace in both or in neither. -/
structure TracedAs (i j : FrameInfo) : Prop where
  features : i.features = j.features
  traced : i.trace = [] ↔ j.trace = []

variable {i i' j j' : FrameInfo}

theorem TracedAs.refl (i : FrameInfo) : i.TracedAs i := ⟨rfl, Iff.rfl⟩

theorem TracedAs.untraced (h : i.TracedAs j) : i.untraced = j.untraced :=
  congrArg (FrameInfo.mk · []) h.features

/-- A join has no trace if and only if one of its sides has none. -/
theorem trace_join_eq_nil : (i.join j).trace = [] ↔ i.trace = [] ∨ j.trace = [] := by
  simp only [← Test.passes_notAfter_nil, Test.passes_join]

theorem TracedAs.join (h : i.TracedAs i') (h' : j.TracedAs j') : (i.join j).TracedAs (i'.join j') where
  features := congrArg₂ (· ∪ ·) h.features h'.features
  traced := by rw [trace_join_eq_nil, trace_join_eq_nil, h.traced, h'.traced]

theorem features_addStep (i : FrameInfo) (step : Step) (limit : Nat) :
    (i.addStep step limit).features = i.features := by
  unfold addStep
  split <;> rfl

/-- What a call brings has a trace. -/
theorem trace_addStep_ne_nil {limit : Nat} (hlimit : 0 < limit) (i : FrameInfo) (step : Step) :
    (i.addStep step limit).trace ≠ [] := by
  unfold addStep
  split
  · exact List.cons_ne_nil _ _
  · next hlength => exact fun hnil => hlength (by rwa [hnil])

theorem untraced_addStep (h : i.untraced = j.untraced) (step : Step) (limit limit' : Nat) :
    (i.addStep step limit).untraced = (j.addStep step limit').untraced := by
  unfold untraced
  rw [features_addStep, features_addStep]
  exact h

theorem addStep_tracedAs {limit limit' : Nat} (hlimit : 0 < limit) (hlimit' : 0 < limit')
    (h : i.untraced = j.untraced) (step : Step) :
    (i.addStep step limit).TracedAs (j.addStep step limit') where
  features := by
    have huntraced := congrArg FrameInfo.features (untraced_addStep h step limit limit')
    exact huntraced
  traced := iff_of_false (trace_addStep_ne_nil hlimit i step) (trace_addStep_ne_nil hlimit' j step)

/-- The test looks at traces to see only whether there are any. -/
def Test.Blind (q : Test) : Prop := ∀ i j : FrameInfo, i.TracedAs j → (q.passes i ↔ q.passes j)

end FrameInfo

/-! ### Frame sets -/

namespace FrameSet

def TracedAs (s t : FrameSet) : Prop := ∀ f, Option.Rel FrameInfo.TracedAs (s.get? f) (t.get? f)

variable {s s' t t' : FrameSet}

theorem TracedAs.entries (h : s.TracedAs t) :
    List.Forall₂ (fun e e' => e.1 = e'.1 ∧ FrameInfo.TracedAs e.2 e'.2) (OrdMap.entries s)
      (OrdMap.entries t) := OrdMap.forall₂_entries h

theorem TracedAs.untraced (h : s.TracedAs t) : s.untraced = t.untraced := by
  refine OrdMap.ext fun f => ?_
  have hf := h f
  unfold FrameSet.untraced
  rw [OrdMap.get?_mapValues, OrdMap.get?_mapValues]
  generalize s.get? f = i?, t.get? f = j? at hf ⊢
  cases hf with
  | none => rfl
  | some hij => exact congrArg some hij.untraced

theorem TracedAs.join (h : s.TracedAs s') (h' : t.TracedAs t') : (s.join t).TracedAs (s'.join t') := by
  intro f
  have hf := h f
  have hf' := h' f
  unfold FrameSet.join
  rw [OrdMap.get?_union, OrdMap.get?_union]
  generalize s.get? f = i?, s'.get? f = i?' at hf ⊢
  generalize t.get? f = j?, t'.get? f = j?' at hf' ⊢
  cases hf with
  | none => simpa only [Option.merge_none_left] using hf'
  | some hi =>
    cases hf' with
    | none => exact .some hi
    | some hj => exact .some (hi.join hj)

theorem TracedAs.add (h : s.TracedAs t) (f : Frame) {i j : FrameInfo} (hij : i.TracedAs j) :
    (s.add f i).TracedAs (t.add f j) := by
  intro f'
  have hf := h f
  rw [get?_add, get?_add]
  split
  · generalize s.get? f = own?, t.get? f = own?' at hf ⊢
    cases hf with
    | none => exact .some hij
    | some hown => exact .some (hown.join hij)
  · exact h f'

/-- Sets stay related where frames are changed in a way that does not look at traces. -/
theorem TracedAs.mapFrames {g : Frame → FrameInfo → Option (Frame × FrameInfo)}
    (hg : ∀ f i j, i.TracedAs j →
      Option.Rel (fun e e' => e.1 = e'.1 ∧ FrameInfo.TracedAs e.2 e'.2) (g f i) (g f j))
    (h : s.TracedAs t) : (s.mapFrames g).TracedAs (t.mapFrames g) := by
  have hchanged : List.Forall₂ (fun e e' => e.1 = e'.1 ∧ FrameInfo.TracedAs e.2 e'.2)
      (s.entries.filterMap fun e => g e.1 e.2) (t.entries.filterMap fun e => g e.1 e.2) := by
    refine List.rel_filterMap (fun e e' he => ?_) h.entries
    rw [he.1]
    exact hg e'.1 e.2 e'.2 he.2
  refine List.rel_foldl (P := TracedAs) (fun s t hst e e' he => ?_) (fun _ => .none) hchanged
  rw [he.1]
  exact hst.add e'.1 he.2

theorem tracedAs_closed : ClosedRel TracedAs where
  refl s f := by
    cases s.get? f with
    | none => exact .none
    | some i => exact .some (.refl i)
  join h h' := h.join h'
  below path depth h := h.mapFrames fun f i j hij => .some ⟨rfl, hij⟩
  addFeature {s s'} feature h := by
    intro f
    have hf := h f
    unfold addFeature
    rw [OrdMap.get?_mapValues, OrdMap.get?_mapValues]
    generalize s.get? f = i?, s'.get? f = j? at hf ⊢
    cases hf with
    | none => exact .none
    | some hij => exact .some ⟨congrArg (OrdSet.insert · feature) hij.features, hij.traced⟩
  copies p limit h := h.mapFrames fun f i j hij => by
    unfold Propagation.copy
    simp only
    split
    · exact .none
    · exact .some ⟨rfl, congrArg (· ∪ p.features) hij.features, hij.traced⟩
  isEmpty {s s'} h := by
    rw [Bool.eq_iff_iff, OrdMap.isEmpty_iff, OrdMap.isEmpty_iff]
    refine forall_congr' fun f => ?_
    have hf := h f
    generalize s.get? f = i?, s'.get? f = j? at hf ⊢
    cases hf <;> simp

/-- Sets are related if and only if no test tells them apart that sees only whether there are
traces. -/
theorem tracedAs_iff_passes :
    s.TracedAs t ↔ ∀ q : Test, q.Blind → ∀ f, s.Passes q f ↔ t.Passes q f := by
  constructor
  · intro h q hq f
    have hf := h f
    unfold Passes
    generalize s.get? f = i?, t.get? f = j? at hf ⊢
    cases hf with
    | none => simp
    | some hij => simpa using hq _ _ hij
  · intro h f
    have hhas := h .anything (fun _ _ _ => Iff.rfl) f
    have hreports (feature : String) :=
      h (.reports feature) (fun i j hij => by
        show feature ∈ i.features ↔ feature ∈ j.features
        rw [hij.features]) f
    have htraced := h (.notAfter [])
      (fun i j hij => by rw [Test.passes_notAfter_nil, Test.passes_notAfter_nil, hij.traced]) f
    rw [passes_anything, passes_anything, Has, Has] at hhas
    unfold Passes at hreports htraced
    cases hs : s.get? f <;> cases ht : t.get? f <;>
      simp only [hs, ht, reduceCtorEq, false_and, exists_false, Option.some.injEq,
        exists_eq_left', exists_eq', iff_false, false_iff, not_true_eq_false] at hhas hreports htraced
    · exact .none
    · exact .some ⟨OrdSet.ext hreports, by
        rwa [Test.passes_notAfter_nil, Test.passes_notAfter_nil] at htraced⟩

theorem addStep_tracedAs {limit limit' : Nat} (hlimit : 0 < limit) (hlimit' : 0 < limit')
    (h : s.untraced = t.untraced) (step : Step) :
    (s.addStep step limit).TracedAs (t.addStep step limit') := by
  intro f
  have hf := OrdMap.rel_of_mapValues_eq h f
  unfold addStep
  rw [OrdMap.get?_mapValues, OrdMap.get?_mapValues]
  generalize s.get? f = i?, t.get? f = j? at hf ⊢
  cases hf with
  | none => exact .none
  | some hij => exact .some (FrameInfo.addStep_tracedAs hlimit hlimit' hij step)

end FrameSet

open FrameSet (TracedAs tracedAs_closed)

/-! ### Calls -/

def Heuristics.tracing (h : Heuristics) (limit : Nat) : Heuristics :=
  { h with maxTraceLength := limit }

namespace Call

variable {h : Heuristics} {limit limit' : Nat} {c : Call} {s t : State} {model model' : Model}
  {callee callee' : Callee}

/-- Ports have the same frames but for traces, one port after another. -/
theorem entries_untraced {m n : PortFrames} (hmn : m.untraced = n.untraced) :
    List.Forall₂ (fun e e' => e.1 = e'.1 ∧ FrameSet.untraced e.2 = FrameSet.untraced e'.2) m.entries
      n.entries := OrdMap.forall₂_entries (OrdMap.rel_of_mapValues_eq hmn)

section

variable (hlimit : 0 < limit) (hlimit' : 0 < limit')

include hlimit hlimit'

theorem generate_tracing {o o' : Outputs} (ho : o.Related TracedAs o') (port : Port)
    {frames frames' : FrameSet} (hframes : frames.untraced = frames'.untraced) :
    (c.generate (h.tracing limit) o port frames).Related TracedAs
      (c.generate (h.tracing limit') o' port frames') := by
  have hleaf : TaintTree.Related TracedAs
      (.leaf (frames.addStep (c.step (port.normalize h.maxFieldDepth)) limit))
      (.leaf (frames'.addStep (c.step (port.normalize h.maxFieldDepth)) limit')) :=
    .bare (FrameSet.addStep_tracedAs hlimit hlimit' hframes _)
  exact ho.write tracedAs_closed hleaf (port.normalize h.maxFieldDepth)

theorem outputs_tracing (hs : State.Related TracedAs s t) (hmodel : model.untraced = model'.untraced) :
    (c.outputs (h.tracing limit) model s).Related TracedAs
      (c.outputs (h.tracing limit') model' t) := by
  have hgenerations : model.generations.untraced = model'.generations.untraced :=
    congrArg Model.generations hmodel
  have hgenerated : Outputs.Related TracedAs
      (model.generations.entries.foldl (fun o e => c.generate (h.tracing limit) o e.1 e.2) ∅)
      (model'.generations.entries.foldl (fun o e => c.generate (h.tracing limit') o e.1 e.2) ∅) := by
    refine List.rel_foldl (P := Outputs.Related TracedAs) (fun o o' ho e e' he => ?_)
      (.refl tracedAs_closed ∅) (entries_untraced hgenerations)
    rw [he.1]
    exact generate_tracing hlimit hlimit' ho e'.1 he.2
  have hspread : Outputs.Related TracedAs (c.spread (h.tracing limit) model s)
      (c.spread (h.tracing limit') model' t) := by
    unfold spread
    rw [Model.propagations_eq_of_untraced hmodel]
    exact List.foldl_rel hgenerated fun p _ _ _ ho => propagate_related tracedAs_closed hs ho p
  exact hspread.collapse tracedAs_closed h.maxOutputPathLeaves

theorem run_tracing (hs : State.Related TracedAs s t) (hcallee : callee.untraced = callee'.untraced)
    (result : Option String) :
    State.Related TracedAs (c.run (h.tracing limit) callee result s).1
      (c.run (h.tracing limit') callee' result t).1 := by
  cases callee with
  | obscure =>
    cases callee' with
    | modeled model' => cases hcallee
    | obscure => exact run_related (h := h) tracedAs_closed hs .obscure result
  | modeled model =>
    cases callee' with
    | obscure => cases hcallee
    | modeled model' =>
      have hmodel : model.untraced = model'.untraced := Callee.modeled.inj hcallee
      have houtputs := outputs_tracing (h := h) (c := c) hlimit hlimit' hs hmodel
      have hafter := writeArguments_related (h := h) (c := c) tracedAs_closed hs houtputs
      cases result with
      | none => exact hafter
      | some register =>
        have hshared : c.shared h model' = c.shared h model := by
          unfold shared
          rw [Model.propagations_eq_of_untraced hmodel]
        show State.Related _ (c.bindResult h _ register _ (c.shared h model))
          (c.bindResult h _ register _ (c.shared h model'))
        rw [hshared]
        exact bindResult_related tracedAs_closed hafter (houtputs.getD tracedAs_closed .result)
          register _

end

/-- The taint that reaches a port has the same frames, with traces at the same ones. -/
theorem reaching_tracedAs (hs : State.Related TracedAs s t) (port : Port) :
    FrameSet.TracedAs (c.reaching h s port) (c.reaching h t port) := by
  unfold reaching
  cases c.argument? port.root with
  | none => exact tracedAs_closed.refl ∅
  | some L => exact Node.Related.collect tracedAs_closed (hs.readAll tracedAs_closed L _ _)

/-- The same is observed at a port but for traces. -/
theorem observeAt_untraced (hs : State.Related TracedAs s t) (port : Port)
    {sinks sinks' : FrameSet} (hsinks : sinks.untraced = sinks'.untraced) :
    (c.observeAt (h.tracing limit) s port sinks).map Observation.untraced =
      (c.observeAt (h.tracing limit') t port sinks').map Observation.untraced := by
  have hreaching := reaching_tracedAs (h := h) (c := c) hs (port.normalize h.maxFieldDepth)
  have hentries : List.Forall₂ (fun e e' => e.1 = e'.1 ∧ e.2.untraced = e'.2.untraced)
      sinks.entries sinks'.entries := OrdMap.forall₂_entries (OrdMap.rel_of_mapValues_eq hsinks)
  rw [observeAt_eq, observeAt_eq]
  show List.map _ (if OrdMap.isEmpty (c.reaching h s (port.normalize h.maxFieldDepth)) then []
    else _) = List.map _ (if OrdMap.isEmpty (c.reaching h t (port.normalize h.maxFieldDepth)) then []
    else _)
  rw [tracedAs_closed.isEmpty hreaching]
  split
  · rfl
  · rw [List.map_map, List.map_map, ← List.forall₂_eq_eq_eq, List.forall₂_map_left_iff,
      List.forall₂_map_right_iff]
    refine hentries.imp fun e e' he => ?_
    obtain ⟨sink, info⟩ := e
    obtain ⟨sink', info'⟩ := e'
    obtain ⟨rfl, hinfo⟩ : sink = sink' ∧ info.untraced = info'.untraced := he
    have hstep := FrameInfo.untraced_addStep hinfo (c.step (port.normalize h.maxFieldDepth)) limit
      limit'
    have hsources : FrameSet.untraced (OrdMap.filter (fun f _ => sink.admits f)
        (c.reaching h s (port.normalize h.maxFieldDepth)).sources) =
          FrameSet.untraced (OrdMap.filter (fun f _ => sink.admits f)
            (c.reaching h t (port.normalize h.maxFieldDepth)).sources) := by
      rw [← FrameSet.filter_untraced, ← FrameSet.sources_untraced, hreaching.untraced,
        FrameSet.sources_untraced, FrameSet.filter_untraced]
    have hparameters : (c.reaching h s (port.normalize h.maxFieldDepth)).arguments.untraced =
        (c.reaching h t (port.normalize h.maxFieldDepth)).arguments.untraced := by
      rw [← FrameSet.arguments_untraced, hreaching.untraced, FrameSet.arguments_untraced]
    have hobservation := congr (congrArg₂
      (Observation.mk c.site c.callee (port.normalize h.maxFieldDepth) sink) hstep hsources)
      hparameters
    exact hobservation

theorem observe_untraced (hs : State.Related TracedAs s t)
    (hmodel : model.untraced = model'.untraced) :
    (c.observe (h.tracing limit) model s).map Observation.untraced =
      (c.observe (h.tracing limit') model' t).map Observation.untraced := by
  have hsinks : model.sinks.untraced = model'.sinks.untraced := congrArg Model.sinks hmodel
  unfold observe
  rw [List.map_flatMap, List.map_flatMap, ← List.forall₂_eq_eq_eq]
  refine List.rel_flatMap (entries_untraced hsinks) fun e e' he => ?_
  obtain ⟨port, sinks⟩ := e
  obtain ⟨port', sinks'⟩ := e'
  obtain ⟨rfl, hsinks⟩ : port = port' ∧ sinks.untraced = sinks'.untraced := he
  rw [List.forall₂_eq_eq_eq]
  exact observeAt_untraced hs port hsinks

end Call

end TaintFlow
