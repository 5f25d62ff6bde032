import Mathlib.Algebra.GroupWithZero.Nat
import TaintFlow.Proofs.Courses

/-!
The result of a run without conditions is a stable solution. Its models, read back as what is known
about callees, are the summaries at the end of the run, so the verdict on every method is the one
that settled it. The issues are those of all verdicts, and the halves that are left are those that
some verdict leaves waiting: `run_stable`.
-/

namespace TaintFlow

/-- A chain in front of the traces leaves the keys as they are. -/
theorem EffectIndex.filter_gate (e : EffectIndex) (test : Issue.Key → Bool)
    (ds : List DeferredIssue) :
    (e.gate ds).filter (fun i => test i.key) = e.gate (ds.filter fun d => test d.issue.key) := by
  unfold gate
  rw [List.filter_filterMap, List.filterMap_filter]
  refine List.filterMap_congr fun d _ => ?_
  cases e.chain? d.method d.effectSources with
  | none => simp
  | some chain =>
    show Option.filter _ (some _) = if test d.issue.key then _ else _
    cases htest : test d.issue.key
    · exact Option.filter_some_neg (by simpa [Issue.key] using htest)
    · exact Option.filter_some_pos (by simpa [Issue.key] using htest)

/-- Issues with other keys have no part in those with some keys. -/
theorem Issues.filter_addAll (p : Issue.Key → Bool) (news : List Issue) (is : Issues) :
    (is.addAll news).filter (fun k _ => p k) =
      Issues.addAll (is.filter fun k _ => p k) (news.filter fun i => p i.key) :=
  OrdMap.filter_foldl_addKeyed p news is

namespace Analysis

variable (a : Analysis)

def Result.callee (r : Result) (name : String) : Callee :=
  match r.models.get? name with
  | some model => .modeled model
  | none => .obscure

variable {a} {w : Course} {m : Method}

section WellFormed

variable (hp : a.program.WellFormed)

include hp

/-- What is analyzed has a body. -/
theorem mem_analyzed {k : MethodId} (hk : k ∈ (a.order w).flatMap a.analyzedIds) :
    ∃ m ∈ a.program.methods, m.hasBody = true ∧ m.id = k := by
  obtain ⟨c, -, hc⟩ := List.mem_flatMap.1 hk
  obtain ⟨m, hm, rfl⟩ := List.mem_map.1 hc
  obtain ⟨hmethod, -, hbody⟩ := (mem_bodies hp).1 hm
  exact ⟨m, hmethod, hbody, rfl⟩

theorem finish_settled (hw : w.Finds a.program) (hrun : (a.runAlong w).conditions = [])
    (hm : m ∈ a.program.methods) (hbody : m.hasBody = true) : Settled a (a.finish w).2 m := by
  obtain ⟨hfinish, hontime⟩ := of_conditions_eq_nil hrun
  obtain ⟨c, hc, hmc⟩ := exists_mem_order hp hw hm
  have hnodup : ([] ++ (a.order w).flatten).Nodup := by
    rw [List.nil_append]
    exact nodup_flatten_order hp hw
  rw [finish_of_onTime hontime] at hfinish ⊢
  exact analyzeAll_settled hp hnodup (calleesFirst_order hp hw) hfinish c hc m
    ((mem_bodies hp).2 ⟨hm, hmc, hbody⟩)

/-! ### Summaries -/

theorem start_summaries_eq_some_iff {k : MethodId} {model : Model} :
    a.start.summaries.get? k = some model ↔
      ∃ m ∈ a.program.methods, m.id = k ∧ initialSummary m = some model := by
  have hkeys : ((a.program.methods.filterMap fun m =>
      (initialSummary m).map (m.id, ·)).map Prod.fst).Nodup := by
    rw [List.Nodup, List.pairwise_map, List.pairwise_filterMap]
    refine hp.pairwise_ids.imp fun {m m'} hlt e he e' he' heq => ?_
    obtain ⟨_, -, rfl⟩ := Option.map_eq_some_iff.1 he
    obtain ⟨_, -, rfl⟩ := Option.map_eq_some_iff.1 he'
    rw [show m.id = m'.id from heq] at hlt
    exact Nat.lt_irrefl _ hlt
  rw [start, OrdMap.get?_ofList_eq_some_iff hkeys, List.mem_filterMap]
  refine exists_congr fun m => and_congr_right fun _ => ?_
  rw [Option.map_eq_some_iff]
  constructor
  · rintro ⟨_, hmodel, ⟨⟩⟩
    exact ⟨rfl, hmodel⟩
  · rintro ⟨rfl, hmodel⟩
    exact ⟨model, hmodel, rfl⟩

theorem start_summary (hm : m ∈ a.program.methods) :
    a.start.summaries.get? m.id = initialSummary m := by
  ext model : 1
  rw [start_summaries_eq_some_iff hp]
  constructor
  · rintro ⟨m', hm', hid, hmodel⟩
    rwa [← hp.eq_of_id hm' hm hid]
  · exact fun hmodel => ⟨m, hm, rfl, hmodel⟩

theorem getD_start_summary (hm : m ∈ a.program.methods) :
    a.start.summaries.getD m.id ∅ = m.declared.getD ∅ := by
  rw [OrdMap.getD, start_summary hp hm, initialSummary]
  cases m.declared <;> cases m.hasBody <;> rfl

theorem finish_summaries_id {k : MethodId} {model : Model}
    (h : (a.finish w).2.summaries.get? k = some model) : ∃ m ∈ a.program.methods, m.id = k := by
  by_cases hk : k ∈ (a.order w).flatMap a.analyzedIds
  · obtain ⟨m, hm, -, hid⟩ := mem_analyzed hp hk
    exact ⟨m, hm, hid⟩
  · rw [finish_sameOutside.summaries k hk] at h
    obtain ⟨m, hm, hid, -⟩ := (start_summaries_eq_some_iff hp).1 h
    exact ⟨m, hm, hid⟩

/-- A method has a summary if it has a body or a declared model, and only then. -/
theorem finish_summaries_isSome (hm : m ∈ a.program.methods) :
    ((a.finish w).2.summaries.get? m.id).isSome = (m.hasBody || m.declared.isSome) := by
  have hinitial : (a.start.summaries.get? m.id).isSome = (m.hasBody || m.declared.isSome) := by
    rw [start_summary hp hm, initialSummary]
    cases m.declared <;> cases m.hasBody <;> rfl
  by_cases hk : m.id ∈ (a.order w).flatMap a.analyzedIds
  · obtain ⟨m', hm', hbody, hid⟩ := mem_analyzed hp hk
    obtain rfl := hp.eq_of_id hm' hm hid
    rw [hbody, Bool.true_or] at hinitial ⊢
    exact finish_sameOutside.present m'.id hinitial
  · rw [finish_sameOutside.summaries m.id hk, hinitial]

/-- The models of a result are the summaries, found by name. -/
theorem run_models_eq_some_iff {name : String}
    {model : Model} :
    (a.runAlong w).models.get? name = some model ↔
      ∃ m ∈ a.program.methods, m.name = name ∧ (a.finish w).2.summaries.get? m.id = some model := by
  have hname {e : MethodId × Model} (h : e ∈ (a.finish w).2.summaries.entries) :
      ∃ m ∈ a.program.methods, m.id = e.1 ∧ m.name = a.program.nameOf e.1 := by
    obtain ⟨m, hm, hid⟩ := finish_summaries_id hp (OrdMap.get?_eq_some_iff.2 h)
    exact ⟨m, hm, hid, hid ▸ (hp.nameOf_id hm).symm⟩
  have hkeys : (((a.finish w).2.summaries.entries.map fun e =>
      (a.program.nameOf e.1, e.2)).map Prod.fst).Nodup := by
    rw [List.map_map]
    have hnodup : ((a.finish w).2.summaries.entries.map Prod.fst).Nodup := OrdMap.nodup_keys _
    refine List.Nodup.map_on (fun e he e' he' heq => ?_) (List.Nodup.of_map _ hnodup)
    obtain ⟨m, hm, hid, hm₁⟩ := hname he
    obtain ⟨m', hm', hid', hm₂⟩ := hname he'
    obtain rfl := hp.eq_of_name hm hm' (hm₁.trans (Eq.trans heq hm₂.symm))
    exact List.inj_on_of_nodup_map hnodup he he' (hid.symm.trans hid')
  rw [models_runAlong, OrdMap.get?_ofList_eq_some_iff hkeys, List.mem_map]
  constructor
  · rintro ⟨e, he, heq⟩
    obtain ⟨m, hm, hid, hm₁⟩ := hname he
    refine ⟨m, hm, hm₁.trans (congrArg Prod.fst heq), ?_⟩
    rw [OrdMap.get?_eq_some_iff, hid, ← show e.2 = model from congrArg Prod.snd heq]
    exact he
  · rintro ⟨m, hm, rfl, hmodel⟩
    exact ⟨(m.id, model), OrdMap.get?_eq_some_iff.1 hmodel, by rw [hp.nameOf_id hm]⟩

theorem run_models (hm : m ∈ a.program.methods) :
    (a.runAlong w).models.get? m.name = (a.finish w).2.summaries.get? m.id := by
  ext model : 1
  rw [run_models_eq_some_iff hp]
  constructor
  · rintro ⟨m', hm', hname, hmodel⟩
    rwa [← hp.eq_of_name hm' hm hname]
  · exact fun hmodel => ⟨m, hm, rfl, hmodel⟩

/-- The result says about callees what was known at the end of the run. -/
theorem run_callee :
    (a.runAlong w).callee = a.callee (a.finish w).2 := by
  funext name
  unfold Result.callee callee
  cases hlookup : a.program.lookup name with
  | some m =>
    obtain ⟨hm, rfl⟩ := Program.mem_of_lookup hlookup
    rw [run_models hp hm]
    rfl
  | none =>
    have hnone : (a.runAlong w).models.get? name = none := by
      rw [Option.eq_none_iff_forall_ne_some]
      intro model hmodel
      obtain ⟨m, hm, rfl, -⟩ := (run_models_eq_some_iff hp).1 hmodel
      rw [hp.lookup_name hm] at hlookup
      cases hlookup
    simp only [hnone, Option.bind_none]

/-! ### Outcomes and waiting halves -/

theorem finish_matched (hw : w.Finds a.program) (hrun : (a.runAlong w).conditions = []) :
    (a.finish w).2.matched.values = (a.program.methods.filter Method.hasBody).map fun m =>
      (a.verdict (a.callee (a.finish w).2) m).matched := by
  have hentries : (a.finish w).2.matched.entries = (a.program.methods.filter Method.hasBody).map
      fun m => (m.id, (a.verdict (a.callee (a.finish w).2) m).matched) := by
    have hascending := hp.ascending_ids (fun m => (a.verdict (a.callee (a.finish w).2) m).matched)
      Method.hasBody
    refine OrdMap.entries_eq_of_ascending hascending fun k => ?_
    ext matched : 1
    rw [OrdMap.lookup_eq_some_iff hascending, List.mem_map]
    constructor
    · intro hmatched
      by_cases hk : k ∈ (a.order w).flatMap a.analyzedIds
      · obtain ⟨m, hm, hbody, rfl⟩ := mem_analyzed hp hk
        rw [(finish_settled hp hw hrun hm hbody).matched] at hmatched
        exact ⟨m, List.mem_filter.2 ⟨hm, hbody⟩, by rw [Option.some.inj hmatched]⟩
      · rw [finish_sameOutside.matched k hk] at hmatched
        cases hmatched
    · rintro ⟨m, hm, heq⟩
      obtain ⟨hm, hbody⟩ := List.mem_filter.1 hm
      cases heq
      exact (finish_settled hp hw hrun hm hbody).matched
  rw [OrdMap.values, hentries, List.map_map]
  rfl

/-- The halves that a verdict leaves waiting are those that wait at the calls of its method. -/
theorem waiting_halves (hw : w.Finds a.program) (hrun : (a.runAlong w).conditions = [])
    (hm : m ∈ a.program.methods) (hbody : m.hasBody = true) :
    (a.verdict (a.callee (a.finish w).2) m).waiting.halves =
      (a.finish w).2.stash.halves.filter fun k _ => k.2.1.method = m.id := by
  refine OrdMap.ext fun k => ?_
  obtain ⟨rule, site, label⟩ := k
  rw [OrdMap.get?_filter]
  by_cases hsite : site.method = m.id
  · rw [← (finish_settled hp hw hrun hm hbody).waiting rule site label hsite]
    cases (a.finish w).2.stash.halves.get? (rule, site, label) <;> simp [hsite, Option.filter]
  · rw [a.waiting_elsewhere _ m rule site label hsite]
    cases (a.finish w).2.stash.halves.get? (rule, site, label) <;> simp [hsite] <;> rfl

end WellFormed

/-- Items that each have one of some keys, counted key by key. -/
theorem length_eq_sum_filter {α κ : Type} [DecidableEq κ] (key : α → κ) {ks : List κ}
    (hks : ks.Nodup) {items : List α} (h : ∀ i ∈ items, key i ∈ ks) :
    items.length = (ks.map fun k => (items.filter fun i => key i = k).length).sum := by
  induction ks generalizing items with
  | nil =>
    obtain rfl : items = [] := List.eq_nil_iff_forall_not_mem.2 fun i hi => by cases h i hi
    rfl
  | cons k ks ih =>
    obtain ⟨hk, hks⟩ := List.nodup_cons.1 hks
    have hothers : ∀ i ∈ items.filter fun i => !decide (key i = k), key i ∈ ks := by
      intro i hi
      obtain ⟨hi, hne⟩ := List.mem_filter.1 hi
      exact (List.mem_cons.1 (h i hi)).resolve_left (by simpa using hne)
    have hsame : (ks.map fun k' => ((items.filter fun i => !decide (key i = k)).filter
        fun i => key i = k').length) = ks.map fun k' => (items.filter fun i => key i = k').length :=
      List.map_congr_left fun k' hk' => by
        rw [List.filter_filter]
        congr 1
        refine List.filter_congr fun i _ => ?_
        have hne : k' ≠ k := fun heq => hk (heq ▸ hk')
        by_cases hi : key i = k' <;> simp [hi, hne]
    rw [List.length_eq_length_filter_add fun i => decide (key i = k), ih hks hothers, hsame]
    rfl

theorem finish_pending (hp : a.program.WellFormed) (hw : w.Finds a.program)
    (hrun : (a.runAlong w).conditions = []) :
    (a.finish w).2.stash.halves.entries.length =
      ((a.program.methods.filter Method.hasBody).map fun m =>
        (a.verdict (a.callee (a.finish w).2) m).waiting.pending).sum := by
  have hnodup : ((a.program.methods.filter Method.hasBody).map Method.id).Nodup :=
    (List.filter_sublist.map Method.id).nodup hp.nodup_ids
  have hids : ∀ e ∈ (a.finish w).2.stash.halves.entries,
      e.1.2.1.method ∈ (a.program.methods.filter Method.hasBody).map Method.id := by
    rintro ⟨⟨rule, site, label⟩, sources⟩ he
    by_cases hk : site.method ∈ (a.order w).flatMap a.analyzedIds
    · obtain ⟨m, hm, hbody, hid⟩ := mem_analyzed hp hk
      exact List.mem_map.2 ⟨m, List.mem_filter.2 ⟨hm, hbody⟩, hid⟩
    · have hget := OrdMap.get?_eq_some_iff.2 he
      rw [finish_sameOutside.stash rule site label hk] at hget
      cases hget
  rw [length_eq_sum_filter (fun e => e.1.2.1.method) hnodup hids, List.map_map]
  refine congrArg List.sum (List.map_congr_left fun m hm => ?_)
  obtain ⟨hm, hbody⟩ := List.mem_filter.1 hm
  rw [Stash.pending, waiting_halves hp hw hrun hm hbody, OrdMap.size, OrdMap.filter,
    Function.comp_apply]

/-! ### Inferred models -/

theorem occupied_infer (w : Walk) (g : Walk.Gathered) : (MethodAnalysis.infer w g).Occupied where
  generations := Model.occupied_ofFrames _
  parameterSources := PortFrames.occupied_empty
  sinks := Model.occupied_ofFrames _

theorem occupied_run (w : Walk) : (MethodAnalysis.run w).model.Occupied := by
  unfold MethodAnalysis.run
  split
  · exact ⟨PortFrames.occupied_empty, PortFrames.occupied_empty, PortFrames.occupied_empty⟩
  · exact occupied_infer _ _

/-- Every port that an inferred model lists holds a frame. -/
theorem occupied_verdict (callees : String → Callee) (m : Method) :
    (a.verdict callees m).model.Occupied :=
  List.foldlRecOn _ _ (occupied_run _) fun _ h e _ => h.addSink e.1 e.2.1 e.2.2

/-- The summary of a visited method is what it was, joined with the verdict. -/
theorem visit_summary {p : Progress} {model : Model} (h : p.summaries.get? m.id = some model) :
    (a.visit m p).2.summaries.get? m.id =
      some (model.join (a.verdict (a.callee p) m).model) := by
  have hown : p.summaries.getD m.id ∅ = model := by rw [OrdMap.getD, h]; rfl
  rw [visit_summaries, hown]
  split
  · next hle => rw [h, Model.join_eq_left (occupied_verdict _ m) hle]
  · rw [OrdMap.get?_insert, if_pos rfl]

theorem visit_getD_summary (m : Method) (p : Progress) :
    (a.visit m p).2.summaries.getD m.id ∅ =
      (p.summaries.getD m.id ∅).join (a.verdict (a.callee p) m).model := by
  rw [visit_summaries]
  split
  · next hle => exact (Model.join_eq_left (occupied_verdict _ m) hle).symm
  · rw [OrdMap.getD, OrdMap.get?_insert, if_pos rfl]
    rfl

theorem visit_summary_of_ne {p : Progress} {k : MethodId} (h : k ≠ m.id) :
    (a.visit m p).2.summaries.get? k = p.summaries.get? k :=
  (a.visit_sameOutside m p).summaries k (by simpa using h)

theorem visit_getD_summary_of_ne {p : Progress} {k : MethodId} (h : k ≠ m.id) :
    (a.visit m p).2.summaries.getD k ∅ = p.summaries.getD k ∅ := by
  rw [OrdMap.getD, OrdMap.getD, visit_summary_of_ne h]

/-- A visit joins the verdict into the summary of the method. -/
theorem visit_summaries_of_contains {p : Progress} (h : p.summaries.contains m.id = true) :
    (a.visit m p).2.summaries = p.summaries.insert m.id
      ((p.summaries.getD m.id ∅).join (a.verdict (a.callee p) m).model) := by
  obtain ⟨model, hmodel⟩ := OrdMap.contains_iff.1 h
  refine OrdMap.ext fun k => ?_
  rw [OrdMap.get?_insert]
  split
  · next hk => rw [hk, visit_summary hmodel, OrdMap.getD, hmodel]; rfl
  · next hk => exact visit_summary_of_ne hk

/-! ### Stability -/

/-- The issues of some verdicts, those of rules that ask for an effect included, one for every key. -/
def issuesOf (a : Analysis) (vs : List Verdict) : Issues :=
  let effects := EffectIndex.build a.program (CallGraph.build a.program) a.kinds
  ((∅ : Issues).addAll (vs.flatMap fun v => v.matched.issues)).addAll
    (effects.gate (vs.flatMap fun v => v.matched.deferred))

theorem keyed_issues (news : List Issue) {is : Issues} (h : OrdMap.Keyed Issue.key is) :
    OrdMap.Keyed Issue.key (is.addAll news) := by
  have hmerge (i j : Issue) : (i.merge j).key = i.key := rfl
  exact h.foldl hmerge news

theorem keyed_issuesOf (vs : List Verdict) : OrdMap.Keyed Issue.key (a.issuesOf vs) :=
  keyed_issues _ (keyed_issues _ OrdMap.keyed_empty)

/-- A run without conditions is a stable solution, in whatever order the components of the call graph
are found, callees first. With the models of the result as what is known about callees, the verdict
on a method with a body brings nothing new to the model of the method, and all verdicts together
have the issues of the result and leave as many halves waiting. -/
theorem run_stable (hp : a.program.WellFormed) (hw : w.Finds a.program)
    (hrun : (a.runAlong w).conditions = []) :
    let r := a.runAlong w
    let ms := a.program.methods.filter Method.hasBody
    (∀ m ∈ a.program.methods, (r.models.get? m.name).isSome = (m.hasBody || m.declared.isSome)) ∧
    (∀ m ∈ ms, ∃ model, r.models.get? m.name = some model ∧
      model.join (a.verdict r.callee m).model = model) ∧
    r.issues = (a.issuesOf (ms.map (a.verdict r.callee))).values ∧
    r.pending = ((ms.map (a.verdict r.callee)).map fun v => v.waiting.pending).sum := by
  intro r ms
  rw [show r.callee = a.callee (a.finish w).2 from run_callee hp]
  refine ⟨fun m hm => ?_, fun m hm => ?_, ?_, ?_⟩
  · rw [run_models hp hm, finish_summaries_isSome hp hm]
  · obtain ⟨hm, hbody⟩ := List.mem_filter.1 hm
    have hsome := finish_summaries_isSome (w := w) hp hm
    rw [hbody, Bool.true_or] at hsome
    obtain ⟨model, hmodel⟩ := Option.isSome_iff_exists.1 hsome
    have hle := (finish_settled hp hw hrun hm hbody).summary
    rw [OrdMap.getD, hmodel] at hle
    exact ⟨model, (run_models hp hm).trans hmodel,
      Model.join_eq_left (occupied_verdict _ m) hle⟩
  · rw [issues_runAlong]
    simp only [issues, finish_matched hp hw hrun, issuesOf, List.flatMap_map]
    rfl
  · rw [congrArg Result.pending (runAlong_eq a w)]
    simp only [Stash.pending, OrdMap.size, finish_pending hp hw hrun, List.map_map]
    rfl

/-- A method that calls itself with a source, and hands what it is called with to a sink. -/
def selfCalling : Analysis where
  program := ⟨[
    ⟨⟨0⟩, "read", [], none, some ((∅ : Model).addGeneration .result (.ofKind ⟨0⟩) ∅)⟩,
    ⟨⟨1⟩, "show", ["x"], none, some ((∅ : Model).addSink (.argument 0) (.ofKind ⟨1⟩) ∅)⟩,
    ⟨⟨2⟩, "main", ["x"], some
      (.run ⟨0, none⟩ (.call "read" [] (some "y"))
        (.run ⟨1, none⟩ (.call "main" ["y"] none)
          (.run ⟨2, none⟩ (.call "show" ["x"] none) .done))), none⟩]⟩
  rules := (∅ : RuleSet).push
    ⟨"shown", 1, "", .direct (OrdSet.ofList [⟨0⟩]) (OrdSet.ofList [⟨1⟩]), none, none⟩
  kinds := ⟨[.named "Source", .named "Sink"]⟩
  heuristics := {}

theorem selfCalling_wellFormed : selfCalling.program.WellFormed where
  ids i m h := by
    match i with
    | 0 | 1 | 2 =>
      cases h
      rfl
    | i + 3 => cases h
  names := by decide

theorem run_stable_selfCalling :
    let r := selfCalling.runAlong selfCalling.swift
    r.issues.length = 1 ∧ r.conditions = [] ∧
      r.issues = (selfCalling.issuesOf ((selfCalling.program.methods.filter Method.hasBody).map
        (selfCalling.verdict r.callee))).values :=
  have hw := Course.finds_swift selfCalling_wellFormed
  ⟨by decide, by decide, (run_stable selfCalling_wellFormed hw (by decide)).2.2.1⟩

end Analysis

end TaintFlow
