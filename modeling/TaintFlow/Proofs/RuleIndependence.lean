import TaintFlow.Proofs.RetainedMatching
import TaintFlow.Proofs.TrackedRuns

/-!
Rules are independent of each other. An analysis with some of the rules and one with all of them
know, at every point, the same about every method but for triggered sinks of the rules that are left
out (`Analysis.Matches`), which visits keep so. Hence the issues are those of the rules that are kept:
`run_retain`.
-/

namespace TaintFlow

namespace Analysis

variable (a : Analysis) (keep : Rule → Bool)

def retain : Analysis := { a with rules := a.rules.retain keep }

def isShown (label : Label) : Bool := a.matcher.isShown keep label

def keepsFinding (f : Finding) : Bool := a.matcher.keepsFinding keep f

variable {a keep}

/-! ### Verdicts -/

theorem withTriggered_sameBut {seen : Label → Bool} {model model' : Model}
    (h : model.SameBut seen model') {matched matched' : Matched}
    (hmatched : matched'.triggered = matched.triggered.filter fun e => seen e.2.1.label) :
    (withTriggered model matched).SameBut seen (withTriggered model' matched') := by
  rw [withTriggered_eq, withTriggered_eq, hmatched]
  exact ⟨h.generations, h.parameterSources, h.sinks.foldl_add_of_filter_eq (by simp),
    h.propagations, h.effectSources⟩

/-- With the retained rules, the verdict on a method has the findings of those rules, and its model
differs in sinks that are not shown only. -/
theorem verdict_retain (hr : a.rules.WellFormed) {f f' : String → Callee}
    (hf : ∀ name, (f name).SameBut (a.isShown keep) (f' name)) (m : Method) :
    (a.verdict f m).model.SameBut (a.isShown keep) ((a.retain keep).verdict f' m).model ∧
      ((a.retain keep).verdict f' m).matched.findings =
        (a.verdict f m).matched.findings.filter (a.keepsFinding keep) := by
  obtain ⟨hmodel, hos⟩ := MethodAnalysis.run_sameBut (m := m) (h := a.heuristics) hf
  constructor
  · exact withTriggered_sameBut hmodel (Matcher.check_triggered_retain hr hos m)
  · show ((a.matcher.retain keep).check m (MethodAnalysis.run ⟨m, a.heuristics, f'⟩).observations
      ∅).1.findings = _
    exact Matcher.check_findings_retain hr m hos

/-! ### Progress -/

/-- The same is known but for what concerns other rules. -/
structure Matches (a : Analysis) (keep : Rule → Bool) (p q : Progress) : Prop where
  summaries : ∀ k, Option.Rel (Model.SameBut (a.isShown keep)) (p.summaries.get? k)
    (q.summaries.get? k)
  matched : ∀ k, (q.matched.get? k).map Matched.findings =
    (p.matched.get? k).map fun v => v.findings.filter (a.keepsFinding keep)

variable {p p' q q' : Progress}

theorem Matches.callee (h : Matches a keep p q) (name : String) :
    (a.callee p name).SameBut (a.isShown keep) ((a.retain keep).callee q name) := by
  cases hlookup : a.program.lookup name with
  | none =>
    have hretain : (a.retain keep).program.lookup name = none := hlookup
    simp only [Analysis.callee, hlookup, hretain, Option.bind_none]
    exact .obscure
  | some m =>
    have hsummary := h.summaries m.id
    rw [callee_of_lookup hlookup, callee_of_lookup (a := a.retain keep) hlookup]
    cases hp : p.summaries.get? m.id <;> cases hq : q.summaries.get? m.id <;>
      rw [hp, hq] at hsummary <;> cases hsummary
    · exact .obscure
    · next hmodel => exact .modeled hmodel

theorem visit_matches (hr : a.rules.WellFormed) (h : Matches a keep p q) {m : Method}
    (hm : p.summaries.contains m.id = true) :
    Matches a keep (a.visit m p).2 ((a.retain keep).visit m q).2 := by
  obtain ⟨hmodel, hfindings⟩ := verdict_retain hr h.callee m
  constructor
  · intro k
    by_cases hk : k = m.id
    · subst hk
      obtain ⟨model, hp⟩ := OrdMap.contains_iff.1 hm
      have hsummary := h.summaries m.id
      cases hq : q.summaries.get? m.id <;> rw [hp, hq] at hsummary <;> cases hsummary
      next model' hsame =>
        rw [visit_summary hp, visit_summary hq]
        exact .some (hsame.join hmodel)
    · rw [visit_summary_of_ne hk, visit_summary_of_ne hk]
      exact h.summaries k
  · intro k
    rw [visit_matched, visit_matched, OrdMap.get?_insert, OrdMap.get?_insert]
    split
    · rw [Option.map_some, Option.map_some, hfindings]
    · exact h.matched k

theorem Matches.congr (h : Matches a keep p q) (hs : p'.summaries = p.summaries)
    (hm : p'.matched = p.matched) (hs' : q'.summaries = q.summaries)
    (hm' : q'.matched = q.matched) : Matches a keep p' q' := by
  constructor
  · rw [hs, hs']
    exact h.summaries
  · rw [hm, hm']
    exact h.matched

theorem Matches.fresh (hp : p.matched = ∅) : Matches a keep p p := by
  refine ⟨fun k => ?_, fun k => by rw [hp]; rfl⟩
  cases p.summaries.get? k with
  | none => exact .none
  | some model => exact .some (.refl model)

theorem skip_matches (h : Matches a keep p q) (m : Method) :
    Matches a keep (skip m p) (skip m q) := by
  refine ⟨fun k => ?_, h.matched⟩
  rw [skip, skip, OrdMap.get?_insert, OrdMap.get?_insert]
  split
  · exact .some (.refl _)
  · exact h.summaries k

theorem tracks_retain (hr : a.rules.WellFormed) : Tracks a (a.retain keep) (Matches a keep) where
  program := rfl
  budget := rfl
  passes := rfl
  congr := Matches.congr
  fresh := Matches.fresh
  visit h _ hpresent := visit_matches hr h hpresent
  skip := skip_matches

/-! ### Issues -/

theorem filter_addAll (test : Int → Bool) (news : List Issue) (is : Issues) :
    (is.addAll news).filter (fun k _ => test k.1) =
      Issues.addAll (is.filter fun k _ => test k.1) (news.filter fun i => test i.ruleCode) :=
  Issues.filter_addAll (fun k => test k.1) news is

theorem issues_filter (test : Int → Bool) (v : Matched) :
    v.issues.filter (fun i => test i.ruleCode) =
      Matched.issues ⟨v.findings.filter fun f => test f.ruleCode, v.triggered⟩ := by
  unfold Matched.issues
  rw [List.filter_filterMap, List.filterMap_filter]
  refine List.filterMap_congr fun f _ => ?_
  cases f with
  | issue i => rfl
  | deferred d => simp

theorem deferred_filter (test : Int → Bool) (v : Matched) :
    v.deferred.filter (fun d => test d.issue.ruleCode) =
      Matched.deferred ⟨v.findings.filter fun f => test f.ruleCode, v.triggered⟩ := by
  unfold Matched.deferred
  rw [List.filter_filterMap, List.filterMap_filter]
  refine List.filterMap_congr fun f _ => ?_
  cases f with
  | issue i => simp
  | deferred d => rfl

/-- Matching analyses have the same outcomes but for what concerns other rules. -/
theorem Matches.values (h : Matches a keep p q) :
    q.matched.values.map Matched.findings =
      p.matched.values.map fun v => v.findings.filter (a.keepsFinding keep) := by
  have hmaps : (q.matched.mapValues fun _ v => v.findings) =
      p.matched.mapValues fun _ v => v.findings.filter (a.keepsFinding keep) := by
    refine OrdMap.ext fun k => ?_
    rw [OrdMap.get?_mapValues, OrdMap.get?_mapValues]
    exact h.matched k
  have hentries := congrArg (fun m => m.entries.map Prod.snd) hmaps
  simpa [OrdMap.mapValues, OrdMap.values, List.map_map, Function.comp_def] using hentries

theorem Matches.issues (h : Matches a keep p q) (g : CallGraph) :
    (a.retain keep).issues g q =
      (a.issues g p).filter fun k _ => (a.rules.get? k.1).any keep := by
  let test (code : Int) : Bool := (a.rules.get? code).any keep
  have hissues : q.matched.values.flatMap Matched.issues =
      (p.matched.values.flatMap Matched.issues).filter fun i => test i.ruleCode := by
    have hq : q.matched.values.flatMap Matched.issues =
        (q.matched.values.map Matched.findings).flatMap fun fs => Matched.issues ⟨fs, []⟩ := by
      rw [List.flatMap_map]
      rfl
    rw [hq, h.values, List.flatMap_map, List.filter_flatMap]
    exact congrArg (List.flatMap · _) (funext fun v => (issues_filter test v).symm)
  have hdeferred : q.matched.values.flatMap Matched.deferred =
      (p.matched.values.flatMap Matched.deferred).filter fun d => test d.issue.ruleCode := by
    have hq : q.matched.values.flatMap Matched.deferred =
        (q.matched.values.map Matched.findings).flatMap fun fs => Matched.deferred ⟨fs, []⟩ := by
      rw [List.flatMap_map]
      rfl
    rw [hq, h.values, List.flatMap_map, List.filter_flatMap]
    exact congrArg (List.flatMap · _) (funext fun v => (deferred_filter test v).symm)
  unfold Analysis.issues
  simp only [hissues, hdeferred]
  show _ = OrdMap.filter (fun (k : Issue.Key) _ => test k.1) _
  have hgate := (EffectIndex.build a.program g a.kinds).filter_gate (fun k => test k.1)
    (p.matched.values.flatMap Matched.deferred)
  rw [filter_addAll, filter_addAll]
  exact congrArg (Issues.addAll _) hgate.symm

/-- Leaving out rules before a run is leaving out their issues after it, along any course. The issues
of the rules that are kept are the same, with the same kinds, calls, traces and features. -/
theorem run_retain (hp : a.program.WellFormed) (hr : a.rules.WellFormed) (keep : Rule → Bool)
    (w : Course) :
    (({ a with rules := a.rules.retain keep } : Analysis).runAlong w).issues =
      (a.runAlong w).issues.filter fun i => (a.rules.get? i.ruleCode).any keep := by
  have hkeyed : OrdMap.Keyed Issue.key (a.issues (CallGraph.build a.program) (a.finish w).2) :=
    keyed_issues _ (keyed_issues _ OrdMap.keyed_empty)
  have hmatches : Matches a keep (a.finish w).2 ((a.retain keep).finish w).2 :=
    (tracks_retain hr).finish hp w
  have hissues := hmatches.issues (CallGraph.build a.program)
  rw [issues_runAlong, issues_runAlong]
  exact (congrArg OrdMap.values hissues).trans
    (hkeyed.values_filter fun k => (a.rules.get? k.1).any keep)

/-- A method in which one source reaches an ordinary sink, and two sources the halves of another. -/
def twoRules : Analysis where
  program := ⟨[
    ⟨⟨0⟩, "input", [], none, some ((∅ : Model).addGeneration .result (.ofKind ⟨0⟩) ∅)⟩,
    ⟨⟨1⟩, "secret", [], none, some ((∅ : Model).addGeneration .result (.ofKind ⟨1⟩) ∅)⟩,
    ⟨⟨2⟩, "send", ["x", "y"], none, some
      (((∅ : Model).addSink (.argument 0) (.ofKind ⟨2⟩) ∅).addSink (.argument 1) (.ofKind ⟨3⟩) ∅)⟩,
    ⟨⟨3⟩, "show", ["x"], none, some ((∅ : Model).addSink (.argument 0) (.ofKind ⟨6⟩) ∅)⟩,
    ⟨⟨4⟩, "both", ["x"], some
      (.run ⟨0, none⟩ (.call "secret" [] (some "y"))
        (.run ⟨1, none⟩ (.call "send" ["x", "y"] none) .done)), none⟩,
    ⟨⟨5⟩, "main", [], some
      (.run ⟨0, none⟩ (.call "input" [] (some "x"))
        (.run ⟨1, none⟩ (.call "show" ["x"] none)
          (.run ⟨2, none⟩ (.call "both" ["x"] none) .done))), none⟩]⟩
  rules := ((∅ : RuleSet).push
    ⟨"shown", 1, "", .direct (OrdSet.ofList [⟨0⟩]) (OrdSet.ofList [⟨6⟩]), none, none⟩).push
    ⟨"sent", 2, "", .paired
      (OrdMap.ofList (fun _ later => later)
        [("a", OrdSet.ofList [⟨0⟩]), ("b", OrdSet.ofList [⟨1⟩])])
      (OrdSet.ofList [⟨2⟩, ⟨3⟩]), none, none⟩
  kinds := ⟨[.named "Input", .named "Secret", .half ⟨"Send", "a"⟩, .half ⟨"Send", "b"⟩,
    .triggered ⟨"Send", "a"⟩ 2, .triggered ⟨"Send", "b"⟩ 2, .named "Show"]⟩
  heuristics := {}

theorem twoRules_wellFormed : twoRules.program.WellFormed ∧ twoRules.rules.WellFormed := by
  refine ⟨⟨fun i m h => ?_, by decide⟩, (RuleSet.wellFormed_empty.push rfl).push (by rfl)⟩
  match i with
  | 0 | 1 | 2 | 3 | 4 | 5 =>
    cases h
    rfl
  | i + 6 => cases h

theorem run_retain_twoRules :
    let kept := { twoRules with rules := twoRules.rules.retain (·.code == 2) }
    (twoRules.runAlong twoRules.swift).issues.length = 2 ∧
      (kept.runAlong twoRules.swift).issues =
        (twoRules.runAlong twoRules.swift).issues.filter fun i =>
          (twoRules.rules.get? i.ruleCode).any (·.code == 2) :=
  ⟨by decide, run_retain twoRules_wellFormed.1 twoRules_wellFormed.2 (·.code == 2) twoRules.swift⟩

end Analysis

end TaintFlow
