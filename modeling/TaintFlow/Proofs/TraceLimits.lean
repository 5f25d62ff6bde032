import TaintFlow.Proofs.LimitedTraces
import TaintFlow.Proofs.Programs
import TaintFlow.Proofs.SeededParameters
import TaintFlow.Proofs.Traces
import TaintFlow.Proofs.TrackedRuns
import TaintFlow.Proofs.Unrolling
import TaintFlow.Proofs.UntracedMatching

/-!
Traces are for reporting only, as long as there are any. Analyses under two limits on the length of
traces, neither of which is zero, know at every point the same but for traces (`SameUntraced`), so
that their models and issues are the same but for traces: `Analysis.run_untraced`. With a limit of
zero no call leaves a trace, and what a call brings to a parameter is not told from what is declared
there, so that methods hand back nothing but what they are declared to
(`Analysis.generations_zero_limit`), and flows are lost: `Analysis.zero_limit_loses`.
-/

namespace TaintFlow

/-! ### Calls told apart by their numbers -/

namespace Program

def CallsApart (p : Program) : Prop := ∀ m ∈ p.methods, (m.calls.map Prod.fst).Nodup

instance (p : Program) : Decidable p.CallsApart := inferInstanceAs (Decidable (∀ m ∈ _, _))

variable {p : Program}

theorem CallsApart.push (hp : p.CallsApart) (name : String) (parameters : List String)
    {body : Option Body} (hbody : ∀ b ∈ body, (b.calls.map Prod.fst).Nodup)
    (declared : Option Model) : (p.push name parameters body declared).CallsApart := by
  intro m hm
  rcases List.mem_append.1 hm with hm | hm
  · exact hp m hm
  · obtain rfl := List.mem_singleton.1 hm
    cases body with
    | none => exact List.nodup_nil
    | some b => exact hbody b rfl

theorem CallsApart.joinDeclared (hp : p.CallsApart) (name : String) (model : Model) :
    (p.joinDeclared name model).CallsApart := by
  rw [Program.joinDeclared]
  split
  · intro m hm
    obtain ⟨own, hown, rfl⟩ := List.mem_map.1 hm
    have hcalls := hp own hown
    split <;> exact hcalls
  · exact hp.push name [] (fun b hb => by cases hb) (some model)

open Interning

/-- In a document statements are numbered one after another. -/
theorem CallsApart.yields_addMethod (hp : p.CallsApart) (d : MethodDocument) :
    (p.addMethod d).Yields CallsApart := by
  refine yields_guard fun _ => yields_bind (yields_true _) fun declared _ =>
    yields_pure (hp.push d.name d.parameters (fun b hb => ?_) declared)
  obtain ⟨block, -, rfl⟩ := Option.map_eq_some_iff.1 hb
  exact block.nodup_calls_number 0

theorem yields_callsApart (d : ProgramDocument) : (ofDocument d).Yields CallsApart :=
  yields_foldlM (fun _ d hp => hp.yields_addMethod d) d fun m hm => by cases hm

theorem CallsApart.yields_addModels (hp : p.CallsApart) (ds : List MethodModel) :
    (p.addModels ds).Yields CallsApart :=
  yields_foldlM
    (fun _ d hp => yields_bind (yields_true _) fun model _ =>
      yields_pure (hp.joinDeclared d.method model)) ds hp

end Program

namespace Analysis

def tracing (a : Analysis) (limit : Nat) : Analysis :=
  { a with heuristics := a.heuristics.tracing limit }

variable {a : Analysis} {w : Course} {limit limit' : Nat} {p q : Progress} {m : Method}

/-! ### Verdicts -/

theorem withTriggered_untraced (model : Model) (matched : Matched) :
    (withTriggered model matched).untraced = withTriggered model.untraced matched.untraced := by
  rw [withTriggered_eq, withTriggered_eq]
  exact congrArg (fun sinks => { model.untraced with sinks })
    (Model.untraced_foldl_add matched.triggered model.sinks)

/-- Under either limit the verdict on a method is the same but for traces. -/
theorem verdict_tracing (hlimit : 0 < limit) (hlimit' : 0 < limit') {f f' : String → Callee}
    (hf : ∀ name, (f name).untraced = (f' name).untraced) (hcalls : (m.calls.map Prod.fst).Nodup) :
    ((a.tracing limit).verdict f m).model.untraced =
        ((a.tracing limit').verdict f' m).model.untraced ∧
      ((a.tracing limit).verdict f m).matched.untraced =
        ((a.tracing limit').verdict f' m).matched.untraced := by
  obtain ⟨hmodel, hos⟩ := MethodAnalysis.run_tracing (m := m) (h := a.heuristics) hlimit hlimit' hf
    hcalls
  have hmatched := a.matcher.check_untraced m hos
  refine ⟨?_, hmatched⟩
  refine (withTriggered_untraced _ _).trans (Eq.trans ?_ (withTriggered_untraced _ _).symm)
  exact congrArg₂ withTriggered hmodel hmatched

/-! ### Progress -/

structure SameUntraced (p q : Progress) : Prop where
  summaries : p.summaries.mapValues (fun _ => Model.untraced) =
    q.summaries.mapValues fun _ => Model.untraced
  matched : p.matched.mapValues (fun _ => Matched.untraced) =
    q.matched.mapValues fun _ => Matched.untraced

theorem SameUntraced.callee (h : SameUntraced p q) (name : String) :
    ((a.tracing limit).callee p name).untraced = ((a.tracing limit').callee q name).untraced := by
  have hprogram (limit : Nat) : (a.tracing limit).program.lookup name = a.program.lookup name := rfl
  cases hlookup : a.program.lookup name with
  | none => simp only [Analysis.callee, hprogram, hlookup, Option.bind_none]
  | some m =>
    have hsummary := OrdMap.rel_of_mapValues_eq h.summaries m.id
    rw [callee_of_lookup ((hprogram limit).trans hlookup),
      callee_of_lookup ((hprogram limit').trans hlookup)]
    generalize p.summaries.get? m.id = model?, q.summaries.get? m.id = model?' at hsummary ⊢
    cases hsummary with
    | none => rfl
    | some hmodel => exact congrArg Callee.modeled hmodel

theorem SameUntraced.visit (hlimit : 0 < limit) (hlimit' : 0 < limit') (h : SameUntraced p q)
    (hcalls : (m.calls.map Prod.fst).Nodup) (hm : p.summaries.contains m.id = true) :
    SameUntraced ((a.tracing limit).visit m p).2 ((a.tracing limit').visit m q).2 := by
  obtain ⟨hmodel, hmatched⟩ := verdict_tracing hlimit hlimit' (a := a) (fun name => h.callee name)
    hcalls
  have hm' : q.summaries.contains m.id = true := by
    rwa [← OrdMap.contains_mapValues (g := fun _ => Model.untraced), ← h.summaries,
      OrdMap.contains_mapValues]
  have hown : (p.summaries.getD m.id ∅).untraced = (q.summaries.getD m.id ∅).untraced := by
    have hgetD (s : OrdMap MethodId Model) : (s.getD m.id ∅).untraced =
        (s.mapValues fun _ => Model.untraced).getD m.id ∅ :=
      (OrdMap.getD_mapValues (g := fun _ => Model.untraced) s m.id ∅).symm
    rw [hgetD, hgetD, h.summaries]
  constructor
  · rw [visit_summaries_of_contains hm, visit_summaries_of_contains hm', OrdMap.mapValues_insert,
      OrdMap.mapValues_insert, h.summaries, Model.untraced_join, Model.untraced_join, hown, hmodel]
  · rw [visit_matched, visit_matched, OrdMap.mapValues_insert, OrdMap.mapValues_insert, h.matched,
      hmatched]

theorem SameUntraced.skip (h : SameUntraced p q) (m : Method) :
    SameUntraced (skip m p) (skip m q) := by
  refine ⟨?_, h.matched⟩
  rw [Analysis.skip, Analysis.skip, OrdMap.mapValues_insert, OrdMap.mapValues_insert, h.summaries]

theorem tracks_tracing (hcalls : a.program.CallsApart) (hlimit : 0 < limit) (hlimit' : 0 < limit') :
    Tracks (a.tracing limit) (a.tracing limit') SameUntraced where
  program := rfl
  budget := rfl
  passes := rfl
  congr h hs hm hs' hm' := ⟨by rw [hs, hs', h.summaries], by rw [hm, hm', h.matched]⟩
  fresh _ := ⟨rfl, rfl⟩
  visit h hm hpresent := h.visit hlimit hlimit' (hcalls _ hm) hpresent
  skip := SameUntraced.skip

/-! ### Results -/

theorem SameUntraced.issues (h : SameUntraced p q) (g : CallGraph) :
    ((a.tracing limit).issues g p).mapValues (fun _ => Issue.untraced) =
      ((a.tracing limit').issues g q).mapValues fun _ => Issue.untraced := by
  let effects := EffectIndex.build a.program g a.kinds
  have hvalues : p.matched.values.map Matched.untraced = q.matched.values.map Matched.untraced := by
    rw [← OrdMap.values_mapValues, h.matched, OrdMap.values_mapValues]
  have hissues (vs : List Matched) : (vs.flatMap Matched.issues).map Issue.untraced =
      (vs.map Matched.untraced).flatMap Matched.issues := by
    rw [List.map_flatMap, List.flatMap_map]
    exact List.flatMap_congr fun v _ => v.issues_untraced.symm
  have hgated (vs : List Matched) :
      (effects.gate (vs.flatMap Matched.deferred)).map Issue.untraced =
        effects.gate ((vs.map Matched.untraced).flatMap Matched.deferred) := by
    rw [← EffectIndex.gate_untraced, List.map_flatMap, List.flatMap_map]
    exact congrArg effects.gate (List.flatMap_congr fun v _ => v.deferred_untraced.symm)
  have hall (limit : Nat) (p : Progress) : (a.tracing limit).issues g p =
      ((∅ : Issues).addAll (p.matched.values.flatMap Matched.issues)).addAll
        (effects.gate (p.matched.values.flatMap Matched.deferred)) := rfl
  rw [hall, hall, Issues.untraced_addAll, Issues.untraced_addAll, Issues.untraced_addAll,
    Issues.untraced_addAll, hissues, hissues, hgated, hgated, hvalues]

/-- Under any two limits on the length of traces but zero, the models are the same and so are the
issues, with the same features, but for traces, along any course. -/
theorem run_untraced (hp : a.program.WellFormed) (hcalls : a.program.CallsApart)
    (hlimit : 0 < limit) (hlimit' : 0 < limit') (w : Course) :
    let r := (a.tracing limit).runAlong w
    let r' := (a.tracing limit').runAlong w
    r.models.mapValues (fun _ => Model.untraced) = r'.models.mapValues (fun _ => Model.untraced) ∧
      r.issues.map Issue.untraced = r'.issues.map Issue.untraced := by
  have hfinish : SameUntraced ((a.tracing limit).finish w).2 ((a.tracing limit').finish w).2 :=
    (tracks_tracing hcalls hlimit hlimit').finish hp w
  constructor
  · have hmodels (limit : Nat) :
        ((a.tracing limit).runAlong w).models.mapValues (fun _ => Model.untraced) =
          OrdMap.ofList (fun _ later => later) ((((a.tracing limit).finish w).2.summaries.mapValues
            fun _ => Model.untraced).entries.map fun e => (a.program.nameOf e.1, e.2)) := by
      rw [models_runAlong, OrdMap.mapValues_ofList, List.map_map]
      simp [OrdMap.mapValues, List.map_map, Function.comp_def, tracing]
    rw [hmodels, hmodels, hfinish.summaries]
  · rw [issues_runAlong, issues_runAlong, ← OrdMap.values_mapValues, ← OrdMap.values_mapValues]
    exact congrArg OrdMap.values (hfinish.issues (CallGraph.build a.program))

/-- A method hands back what its callee puts into its parameter. -/
def relayed : Analysis where
  program := ⟨[
    ⟨⟨0⟩, "fill", ["x"], none, some ((∅ : Model).addGeneration (.argument 0) (.ofKind ⟨0⟩) ∅)⟩,
    ⟨⟨1⟩, "show", ["x"], none, some ((∅ : Model).addSink (.argument 0) (.ofKind ⟨1⟩) ∅)⟩,
    ⟨⟨2⟩, "relay", ["x"], some (.run ⟨0, none⟩ (.call "fill" ["x"] none) .done), none⟩,
    ⟨⟨3⟩, "main", [], some
      (.run ⟨0, none⟩ (.fresh "o")
        (.run ⟨1, none⟩ (.call "relay" ["o"] none)
          (.run ⟨2, none⟩ (.call "show" ["o"] none) .done))), none⟩]⟩
  rules := (∅ : RuleSet).push
    ⟨"shown", 1, "", .direct (OrdSet.ofList [⟨0⟩]) (OrdSet.ofList [⟨1⟩]), none, none⟩
  kinds := ⟨[.named "Input", .named "Show"]⟩
  heuristics := {}

theorem relayed_wellFormed : relayed.program.WellFormed := by
  refine ⟨fun i m h => ?_, by decide⟩
  match i with
  | 0 | 1 | 2 | 3 =>
    cases h
    rfl
  | i + 4 => cases h

theorem run_untraced_relayed :
    let r := (relayed.tracing 1).runAlong relayed.swift
    let r' := (relayed.tracing 32).runAlong relayed.swift
    r.issues.length = 1 ∧ r.issues ≠ r'.issues ∧
      r.models.mapValues (fun _ => Model.untraced) = r'.models.mapValues (fun _ => Model.untraced) ∧
      r.issues.map Issue.untraced = r'.issues.map Issue.untraced :=
  ⟨by decide, by decide,
    run_untraced relayed_wellFormed (by decide) (by decide) (by decide) relayed.swift⟩

/-! ### A limit of zero -/

theorem generations_withTriggered (model : Model) (matched : Matched) :
    (withTriggered model matched).generations = model.generations := by
  rw [withTriggered_eq]

section ZeroLimit

variable (hp : a.program.WellFormed) (hdeclared : a.program.DeclaredIn a.kinds.size)
  (hzero : a.heuristics.maxTraceLength = 0) (index : Nat) (path : Path) (f : Frame)

include hp hdeclared hzero

/-- With a limit of zero no frame has a trace, so that no kind is handed back by a parameter. -/
theorem not_has_verdict_generations (hm : m ∈ a.program.methods)
    (hmeets : p.Meets (contractsOf a.program a.traced)) :
    ¬ FrameSet.Has ((a.verdict (a.callee p) m).model.generations.getD ⟨.argument index, path⟩ ∅)
      f := by
  have hgenerations : (a.verdict (a.callee p) m).model.generations =
      (MethodAnalysis.run (a.walkAt m p)).model.generations := generations_withTriggered _ _
  rw [hgenerations, MethodAnalysis.run]
  split
  · exact FrameSet.not_has_empty f
  · next body hbody =>
    have hobeys := (upholds_traced hp hdeclared).obeys hm hmeets hbody
    rw [MethodAnalysis.has_generations]
    rintro ⟨hkind, info, hhanded⟩
    obtain ⟨-, -, fs, hfs, hentry⟩ := MethodAnalysis.of_mem_handedBack hobeys.fits hhanded
    rw [contractsOf_id hp a.traced hm] at hfs
    have hrecords : a.program.Records a.heuristics.maxTraceLength m.name info.trace :=
      OrdMap.Each.of_mem hfs hentry
    have htrace : info.trace = [] := by
      have hlength := hrecords.length
      exact List.eq_nil_of_length_eq_zero (by omega)
    obtain ⟨-, hkept, -⟩ := MethodAnalysis.mem_handedBack_argument.1 hhanded
    simp [hkind, htrace] at hkept

/-- With a limit of zero a method that is not skipped generates at its parameters what it is declared
to generate there, and nothing that its callees bring. -/
theorem generations_zero_limit (hontime : a.OnTime w) (hm : m ∈ a.program.methods) :
    FrameSet.Has (((a.runAlong w).models.getD m.name ∅).generations.getD ⟨.argument index, path⟩ ∅)
        f ↔
      FrameSet.Has ((m.declared.getD ∅).generations.getD ⟨.argument index, path⟩ ∅) f := by
  have hmodel : (a.runAlong w).models.getD m.name ∅ = (a.finish w).2.summaries.getD m.id ∅ := by
    rw [OrdMap.getD, run_models hp hm, OrdMap.getD]
  rw [hmodel, ← getD_start_summary hp hm]
  refine (finish_leads hontime).keeps (R := fun q =>
    FrameSet.Has ((q.summaries.getD m.id ∅).generations.getD ⟨.argument index, path⟩ ∅) f ↔
      FrameSet.Has ((a.start.summaries.getD m.id ∅).generations.getD ⟨.argument index, path⟩ ∅) f)
    (fun v hv hsame => ?_) Iff.rfl
  by_cases hk : m.id = v.1.id
  · obtain ⟨hmethod, hmeets⟩ := (upholds_traced hp hdeclared).visits_meet hv
    have hnone := not_has_verdict_generations hp hdeclared hzero index path f hmethod hmeets
    rw [hk, visit_getD_summary, ← hk]
    show FrameSet.Has (((v.2.summaries.getD m.id ∅).generations.join _).getD _ ∅) f ↔ _
    rw [PortFrames.getD_join, FrameSet.has_join, or_iff_left hnone]
    exact hsame
  · rw [visit_getD_summary_of_ne hk]
    exact hsame

end ZeroLimit

/-- A limit of zero is accepted, and loses what a method hands back through a parameter. -/
theorem zero_limit_loses :
    ¬ ∀ (a : Analysis) (limit limit' : Nat) (w : Course), a.program.WellFormed →
      a.program.CallsApart →
      (a.tracing limit).heuristics.validate = .ok (a.tracing limit).heuristics →
      (a.tracing limit').heuristics.validate = .ok (a.tracing limit').heuristics →
      a.heuristics.timeoutSeconds = none → w.Finds a.program →
      let r := (a.tracing limit).runAlong w
      let r' := (a.tracing limit').runAlong w
      r.conditions = [] → r'.conditions = [] →
      r.models.mapValues (fun _ => Model.untraced) =
          r'.models.mapValues (fun _ => Model.untraced) ∧
        r.issues.map Issue.untraced = r'.issues.map Issue.untraced := by
  intro h
  have hw := Course.finds_swift relayed_wellFormed
  have hsame := h relayed 0 32 relayed.swift relayed_wellFormed (by decide) rfl rfl rfl hw
    (by decide) (by decide)
  have hnone : ((relayed.tracing 0).runAlong relayed.swift).issues = [] := by decide
  have hissue : ((relayed.tracing 32).runAlong relayed.swift).issues.length = 1 := by decide
  have hlength := congrArg List.length hsame.2
  rw [List.length_map, List.length_map, hnone, hissue] at hlength
  cases hlength

end Analysis

end TaintFlow
