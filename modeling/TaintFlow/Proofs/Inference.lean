import TaintFlow.Proofs.Reading
import TaintFlow.Proofs.ThinnedPaths
import TaintFlow.MethodAnalysis

/-!
What is read off a walk. An inferred model generates the kinds that are handed back, at the ports at
which they are (`MethodAnalysis.has_generations`), and propagates the parameters that are: every
frame of a parameter that is handed back has a propagation, and every propagation is that of some
frame (`exists_propagation`, `of_mem_propagations`). Thinning out the input paths of a route can
change the path of a propagation, and nothing else of it.
-/

namespace TaintFlow

/-- The keys of a map that is made of a list are those that are listed. -/
theorem OrdMap.exists_ofList_iff {κ ν : Type} [LinearOrd κ] [DecidableEq κ] {unite : ν → ν → ν}
    {entries : List (κ × ν)} {k : κ} :
    (∃ v, (ofList unite entries).get? k = some v) ↔ ∃ v, (k, v) ∈ entries := by
  have hstep (m : OrdMap κ ν) (e : κ × ν) :
      (∃ v, (m.alter e.1 fun v => some (v.elim e.2 (unite · e.2))).get? k = some v) ↔
        (∃ v, m.get? k = some v) ∨ e.1 = k := by
    rw [get?_alter]
    by_cases h : k = e.1
    · simp [h]
    · simp [h, Ne.symm h]
  have hempty : ¬ ∃ v, (∅ : OrdMap κ ν).get? k = some v := by
    rintro ⟨v, hv⟩
    cases hv
  rw [ofList, foldl_iff (P := fun m : OrdMap κ ν => ∃ v, m.get? k = some v) hstep,
    or_iff_right hempty]
  exact ⟨fun ⟨e, he, hk⟩ => ⟨e.2, hk ▸ he⟩, fun ⟨v, hv⟩ => ⟨(k, v), hv, rfl⟩⟩

/-- The frames at a port are those that are listed for it. -/
theorem Model.has_ofFrames {frames : List (Port × Frame × FrameInfo)} {port : Port} {f : Frame} :
    FrameSet.Has ((ofFrames frames).getD port ∅) f ↔ ∃ info, (port, f, info) ∈ frames := by
  have hstep (m : PortFrames) (e : Port × Frame × FrameInfo) :
      FrameSet.Has ((m.add e.1 e.2.1 e.2.2).getD port ∅) f ↔
        FrameSet.Has (m.getD port ∅) f ∨ e.1 = port ∧ e.2.1 = f := by
    rw [OrdMap.getD, PortFrames.get?_add]
    by_cases h : port = e.1
    · rw [if_pos h, Option.getD_some, FrameSet.has_add, ← h, or_comm]
      simp [eq_comm]
    · rw [if_neg h]
      simp [OrdMap.getD, Ne.symm h]
  rw [ofFrames, foldl_iff (P := fun m : PortFrames => FrameSet.Has (m.getD port ∅) f) hstep,
    or_iff_right (show ¬ FrameSet.Has ((∅ : PortFrames).getD port ∅) f from
      FrameSet.not_has_empty f)]
  constructor
  · rintro ⟨⟨_, _, info⟩, he, rfl, rfl⟩
    exact ⟨info, he⟩
  · rintro ⟨info, h⟩
    exact ⟨_, h, rfl, rfl⟩

namespace MethodAnalysis

variable {w : Walk} {g : Walk.Gathered} {handed : List (Port × Frame × FrameInfo)} {port : Port}
  {f : Frame} {route : Route}

/-! ### Frames that are handed back -/

theorem mem_framesBelow {root : Root} {t : TaintTree} {info : FrameInfo} :
    (port, f, info) ∈ framesBelow root t ↔
      port.root = root ∧ ∃ fs, (port.path, fs) ∈ t.nodes ∧ (f, info) ∈ OrdMap.entries fs := by
  obtain ⟨own, path⟩ := port
  simp only [framesBelow, List.mem_flatMap, List.mem_map, Prod.mk.injEq, Prod.exists,
    Port.mk.injEq]
  constructor
  · rintro ⟨path, fs, hnode, f, info, hf, ⟨rfl, rfl⟩, rfl, rfl⟩
    exact ⟨rfl, fs, hnode, hf⟩
  · rintro ⟨rfl, fs, hnode, hf⟩
    exact ⟨path, fs, hnode, f, info, hf, ⟨rfl, rfl⟩, rfl, rfl⟩

/-- What is handed back at the result is what the returned tree holds. -/
theorem mem_handedBack_result {path : Path} {info : FrameInfo} :
    (⟨.result, path⟩, f, info) ∈ handedBack w g ↔
      ∃ fs, (path, fs) ∈ g.returned.nodes ∧ (f, info) ∈ OrdMap.entries fs := by
  have hexit : ∀ s, (⟨.result, path⟩, f, info) ∉ heldAtExit w s := by
    intro s h
    obtain ⟨index, -, h⟩ := List.mem_flatMap.1 h
    cases (mem_framesBelow.1 (List.mem_filter.1 h).1).1
  rw [handedBack, List.mem_append, mem_framesBelow]
  cases g.exit with
  | none => simp
  | some s => simp [hexit s]

theorem has_generations :
    FrameSet.Has ((infer w g).generations.getD port ∅) f ↔
      f.isArgument = false ∧ ∃ info, (port, f, info) ∈ handedBack w g := by
  rw [infer, Model.has_ofFrames]
  simp only [List.mem_filter, Bool.not_eq_true', exists_and_right]
  exact and_comm

/-- A sink is inferred at a parameter where the parameter reaches an observed sink. -/
theorem has_sinks :
    FrameSet.Has ((infer w g).sinks.getD port ∅) f ↔
      ∃ o ∈ g.observations.values, ∃ own info index path, (own, info) ∈ OrdMap.entries o.parameters ∧
        own.label = .argument index path ∧ port = ⟨.argument index, path⟩ ∧
          f = ⟨o.sink.label, (own.transforms ++ o.sink.transforms).take w.heuristics.maxTransformLength,
            own.sanitizers ∪ o.sink.sanitizers⟩ := by
  rw [infer, Model.has_ofFrames]
  simp only [List.mem_flatMap, Observation.atParameters, List.mem_filterMap, Prod.exists]
  constructor
  · rintro ⟨info, o, ho, own, ownInfo, hown, heq⟩
    split at heq
    · cases heq
    · next index path hlabel =>
      cases heq
      exact ⟨o, ho, own, ownInfo, index, path, hown, hlabel, rfl, rfl⟩
  · rintro ⟨o, ho, own, ownInfo, index, path, hown, hlabel, rfl, rfl⟩
    refine ⟨o.info.addFeatures ownInfo.features, o, ho, own, ownInfo, hown, ?_⟩
    rw [hlabel]

/-! ### Routes -/

def Route.frame (route : Route) (path : Path) : Frame :=
  ⟨.argument route.parameter path, route.transforms, route.sanitizers⟩

theorem exists_input_iff {path : Path} :
    (∃ inputs, (routes handed).get? route = some inputs ∧ ∃ fs, inputs.get? path = some fs) ↔
      ∃ info, (route.output, route.frame path, info) ∈ handed := by
  have hstep (rs : OrdMap Route Inputs) (e : Route × Path × FrameInfo) :
      (∃ inputs, (rs.update e.1 ∅ fun inputs => inputs.update e.2.1 ∅ (· ∪ e.2.2.features)).get?
          route = some inputs ∧ ∃ fs, inputs.get? path = some fs) ↔
        (∃ inputs, rs.get? route = some inputs ∧ ∃ fs, inputs.get? path = some fs) ∨
          e.1 = route ∧ e.2.1 = path := by
    rw [OrdMap.get?_update]
    by_cases hroute : route = e.1
    · subst hroute
      rw [if_pos rfl]
      simp only [Option.some.injEq, exists_eq_left', OrdMap.get?_update, OrdMap.getD]
      by_cases hpath : path = e.2.1
      · simp [hpath]
      · cases rs.get? e.1 <;> simp [hpath, Ne.symm hpath, OrdMap.get?_empty]
    · rw [if_neg hroute]
      simp [Ne.symm hroute]
  have hempty : ¬ ∃ inputs, (∅ : OrdMap Route Inputs).get? route = some inputs ∧
      ∃ fs, inputs.get? path = some fs := by
    rintro ⟨inputs, h, -⟩
    cases h
  rw [routes, foldl_iff (P := fun rs : OrdMap Route Inputs => ∃ inputs, rs.get? route = some inputs ∧
    ∃ fs, inputs.get? path = some fs) hstep, or_iff_right hempty]
  simp only [List.mem_filterMap, Prod.exists]
  constructor
  · rintro ⟨_, _, info, ⟨output, f, info', he, heq⟩, rfl, rfl⟩
    split at heq
    · cases heq
    · next index path hlabel =>
      cases heq
      refine ⟨info, ?_⟩
      rw [Route.frame, ← hlabel]
      exact he
  · rintro ⟨info, h⟩
    exact ⟨route, path, info, ⟨route.output, route.frame path, info, h, rfl⟩, rfl, rfl⟩

/-- Every input of a route is that of a frame that is handed back, and all features are reported
about such frames. -/
theorem each_routes : (routes handed).Each fun route inputs => inputs.Each fun path features =>
    (∃ info, (route.output, route.frame path, info) ∈ handed) ∧
      ∀ feature ∈ features, ∃ e ∈ handed, feature ∈ e.2.2.features := by
  refine List.foldlRecOn _ _ OrdMap.each_empty fun rs hrs ⟨route, path, info⟩ he => ?_
  have hhanded : (route.output, route.frame path, info) ∈ handed := by
    obtain ⟨⟨output, f, own⟩, hown, heq⟩ := List.mem_filterMap.1 he
    simp only at heq
    split at heq
    · cases heq
    · next index path hlabel =>
      cases heq
      rw [Route.frame, ← hlabel]
      exact hown
  have hinputs : OrdMap.Each (fun path features =>
      (∃ info, (route.output, route.frame path, info) ∈ handed) ∧
        ∀ feature ∈ features, ∃ e ∈ handed, feature ∈ e.2.2.features) (rs.getD route ∅) :=
    OrdMap.Each.getD hrs OrdMap.each_empty
  refine hrs.update (hinputs.update ⟨⟨info, hhanded⟩, fun feature hfeature => ?_⟩)
  rcases OrdSet.mem_union.1 hfeature with hold | hnew
  · unfold OrdMap.getD at hold
    cases hpath : ((rs.get? route).getD ∅).get? path with
    | none =>
      rw [hpath] at hold
      exact absurd hold (OrdSet.not_mem_empty feature)
    | some features =>
      rw [hpath] at hold
      exact (hinputs path features hpath).2 feature hold
  · exact ⟨_, hhanded, hnew⟩

/-! ### Propagations -/

def standIn (limit : Nat) (inputs : Inputs) (path : Path) : Path :=
  (collapsePaths (OrdSet.ofKeys inputs) limit).getD path path

theorem standIn_prefix (limit : Nat) (inputs : Inputs) (path : Path) :
    standIn limit inputs path <+: path := by
  unfold standIn OrdMap.getD
  cases h : (collapsePaths (OrdSet.ofKeys inputs) limit).get? path with
  | none => exact List.prefix_refl path
  | some path' => exact (CollapsedPaths.thinned_collapsePaths _ limit).shortened _ _ h

theorem mem_propagations {limit : Nat} {inputs : Inputs} {p : Propagation} :
    p ∈ propagations limit route inputs →
      p.aliasing = false ∧ p.output = route.output ∧ p.transforms = route.transforms ∧
        p.sanitizers = route.sanitizers ∧ p.input.root = .argument route.parameter := by
  intro hp
  obtain ⟨e, -, rfl⟩ := List.mem_map.1 hp
  exact ⟨rfl, rfl, rfl, rfl, rfl⟩

theorem exists_mem_propagations (limit : Nat) (route : Route) {inputs : Inputs} {path : Path}
    {fs : OrdSet String} (h : inputs.get? path = some fs) :
    ∃ p ∈ propagations limit route inputs, p.input.path = standIn limit inputs path := by
  have hstandIn : ∃ features, (collapseInputs limit inputs).get? (standIn limit inputs path) =
      some features :=
    OrdMap.exists_ofList_iff.2 ⟨_, List.mem_map.2 ⟨(path, fs), OrdMap.get?_eq_some_iff.1 h, rfl⟩⟩
  obtain ⟨features, hfeatures⟩ := hstandIn
  exact ⟨_, List.mem_map.2 ⟨_, OrdMap.get?_eq_some_iff.1 hfeatures, rfl⟩, rfl⟩

theorem mem_infer_propagations {p : Propagation} :
    p ∈ (infer w g).propagations ↔ ∃ route inputs,
      (routes (handedBack w g)).get? route = some inputs ∧
        p ∈ propagations w.heuristics.maxInputPathLeaves route inputs := by
  rw [infer, OrdSet.mem_ofList, List.mem_flatMap]
  simp only [Prod.exists, OrdMap.get?_eq_some_iff]

/-- Thinned out, an input is a beginning of an input, and only one feature is new. -/
theorem each_collapseInputs (limit : Nat) (inputs : Inputs) :
    (collapseInputs limit inputs).Each fun path features =>
      (∃ own fs, inputs.get? own = some fs ∧ path <+: own) ∧
        ∀ feature ∈ features, feature = FrameInfo.viaCollapse ∨
          ∃ own fs, inputs.get? own = some fs ∧ feature ∈ fs := by
  refine OrdMap.each_ofList (fun path features features' h h' => ⟨h.1, fun feature hfeature =>
    (OrdSet.mem_union.1 hfeature).elim (h.2 feature) (h'.2 feature)⟩) fun e he => ?_
  obtain ⟨⟨path, features⟩, hpath, rfl⟩ := List.mem_map.1 he
  have hown := OrdMap.get?_eq_some_iff.2 hpath
  refine ⟨⟨path, features, hown, standIn_prefix limit inputs path⟩, fun feature hfeature => ?_⟩
  simp only at hfeature
  split at hfeature
  · exact .inr ⟨path, features, hown, hfeature⟩
  · rcases OrdSet.mem_insert.1 hfeature with hmark | hfeature
    · exact .inl hmark
    · exact .inr ⟨path, features, hown, hfeature⟩

/-- A propagation is inferred from a frame of a parameter that is handed back. Its input may be
cut, and its features are those of such frames. -/
theorem of_mem_propagations {p : Propagation} (hp : p ∈ (infer w g).propagations) :
    p.aliasing = false ∧
      (∃ index path info, p.input.root = .argument index ∧ p.input.path <+: path ∧
        (p.output, ⟨.argument index path, p.transforms, p.sanitizers⟩, info) ∈ handedBack w g) ∧
      ∀ feature ∈ p.features, feature = FrameInfo.viaCollapse ∨
        ∃ e ∈ handedBack w g, feature ∈ e.2.2.features := by
  obtain ⟨route, inputs, hroute, hp⟩ := mem_infer_propagations.1 hp
  obtain ⟨⟨input, features⟩, hinput, rfl⟩ := List.mem_map.1 hp
  have hinputs := each_routes route inputs hroute
  obtain ⟨⟨path, fs, hpath, hsub⟩, hfeatures⟩ := (each_collapseInputs _ inputs).of_mem hinput
  obtain ⟨info, hinfo⟩ := (hinputs path fs hpath).1
  refine ⟨rfl, ⟨route.parameter, path, info, rfl, hsub, hinfo⟩, fun feature hfeature => ?_⟩
  exact (hfeatures feature hfeature).imp_right fun ⟨own, fs, hown, hmem⟩ =>
    (hinputs own fs hown).2 feature hmem

/-- A frame of a parameter that is handed back has a propagation. Its input is that of the frame, or
stands for it. -/
theorem exists_propagation {path : Path} {info : FrameInfo}
    (h : (route.output, route.frame path, info) ∈ handedBack w g) :
    ∃ inputs, (routes (handedBack w g)).get? route = some inputs ∧
      (∃ fs, inputs.get? path = some fs) ∧
      ∃ p ∈ (infer w g).propagations,
        p.input = ⟨.argument route.parameter, standIn w.heuristics.maxInputPathLeaves inputs path⟩ ∧
          p.output = route.output ∧ p.transforms = route.transforms ∧
            p.sanitizers = route.sanitizers := by
  obtain ⟨inputs, hroute, fs, hfs⟩ := exists_input_iff.2 ⟨info, h⟩
  obtain ⟨p, hp, hpath⟩ :=
    exists_mem_propagations w.heuristics.maxInputPathLeaves route hfs
  obtain ⟨-, houtput, htransforms, hsanitizers, hroot⟩ := mem_propagations hp
  refine ⟨inputs, hroute, ⟨fs, hfs⟩, p, mem_infer_propagations.2 ⟨route, inputs, hroute, hp⟩, ?_,
    houtput, htransforms, hsanitizers⟩
  rw [← hpath, ← hroot]

end MethodAnalysis

end TaintFlow
