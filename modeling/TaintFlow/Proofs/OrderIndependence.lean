import Mathlib.Order.WellFounded
import TaintFlow.Proofs.Absorption
import TaintFlow.Proofs.RuleIndex

/-!
Where the order of the methods shows in the whole result. The issues with one key are all of one
method and one rule, and with the same models they differ only in the chains by which effects reach
the method. So the results of two runs are the same if and only if the runs absorb each other and
the same chains lead to the methods whose issues ask for an effect: `Analysis.run_reordered`.
-/

namespace TaintFlow

/-! ### What is found -/

namespace Matcher

variable (m : Matcher) (hr : m.rules.WellFormed) {o : Observation} {s : Stash}

include hr

theorem rule_mem_of_mem_hits {h : Hit} (hh : h ∈ (m.hits o s).1) : h.rule ∈ m.rules.rules := by
  unfold hits at hh
  split at hh
  · cases hh
  · split at hh
    · unfold triggeredHits at hh
      split at hh
      · cases hh
      · next rule hrule =>
        obtain ⟨_, -, rfl⟩ := List.mem_map.1 hh
        exact (hr.get?_eq_some_iff.1 hrule).1
    · obtain ⟨half, hhalf, t, hmet⟩ := exists_of_mem_inTurn hh
      rw [halfHits_eq] at hhalf
      obtain ⟨rule, hrule, hmeets⟩ := List.mem_filterMap.1 hhalf
      rw [rule_of_mem_meetHalf hmet, halfHit?_rule hmeets]
      exact hr.mem_of_mem_rulesForHalf hrule
    · unfold directHits at hh
      obtain ⟨_, -, hh⟩ := List.mem_flatMap.1 hh
      obtain ⟨rule, hrule, rfl⟩ := List.mem_map.1 hh
      exact hr.mem_of_mem_rulesFor (List.mem_of_mem_filter hrule)

/-- Every finding is of a hit of some rule. -/
theorem exists_hit_of_mem_findings {method : Method} {os : List Observation} {f : Finding}
    (hf : f ∈ (m.check method os s).1.findings) :
    ∃ o h, h.rule ∈ m.rules.rules ∧ f = m.finding method o h := by
  obtain ⟨o, -, t, hf⟩ := exists_of_mem_inTurn hf
  obtain ⟨h, hh, rfl⟩ := List.mem_map.1 hf
  exact ⟨o, h, m.rule_mem_of_mem_hits hr hh, rfl⟩

end Matcher

/-! ### Chains -/

/-- What is put in front of some lists can be read off the results. -/
theorem eq_of_append_iff {α : Type} {T : List α → Prop} (hT : ∃ t, T t) {c c' : List α}
    (h : ∀ t, (∃ u, T u ∧ c ++ u = t) ↔ ∃ u, T u ∧ c' ++ u = t) : c = c' := by
  -- the shortest results come from the shortest lists, so both prefixes have the same length
  obtain ⟨shortest, hshortest, hmin⟩ := (measure List.length).wf.has_min {t | T t} hT
  have hle {c c' : List α} (h : ∀ t, (∃ u, T u ∧ c ++ u = t) → ∃ u, T u ∧ c' ++ u = t) :
      ∃ u, T u ∧ c' ++ u = c ++ shortest ∧ c'.length ≤ c.length := by
    obtain ⟨u, hu, heq⟩ := h _ ⟨shortest, hshortest, rfl⟩
    have hlength := congrArg List.length heq
    rw [List.length_append, List.length_append] at hlength
    have := Nat.not_lt.1 (hmin u hu)
    exact ⟨u, hu, heq, by omega⟩
  obtain ⟨u, -, heq, hlength⟩ := hle fun t => (h t).1
  obtain ⟨-, -, -, hlength'⟩ := hle fun t => (h t).2
  exact ((List.append_inj heq (Nat.le_antisymm hlength hlength')).1).symm

/-! ### Merged issues -/

namespace Issue

def merged (is : List Issue) : Option Issue :=
  is.foldl (fun own i => some (own.elim i (Issue.merge · i))) none

def behind (chain : Trace) (i : Issue) : Issue := { i with traces := i.traces.map (chain ++ ·) }

/-- A part that merging unites is united over all issues. -/
theorem mem_merged {α : Type} [LinearOrd α] {part : Issue → OrdSet α}
    (hpart : ∀ i j, part (merge i j) = part i ∪ part j) {is : List Issue} {a : α} :
    (∃ i, merged is = some i ∧ a ∈ part i) ↔ ∃ i ∈ is, a ∈ part i := by
  have hstep (own : Option Issue) (i : Issue) :
      (∃ j, some (own.elim i (Issue.merge · i)) = some j ∧ a ∈ part j) ↔
        (∃ j, own = some j ∧ a ∈ part j) ∨ a ∈ part i := by
    cases own with
    | none => simp
    | some j => simp [hpart, OrdSet.mem_union]
  rw [merged, foldl_iff (P := fun own : Option Issue => ∃ j, own = some j ∧ a ∈ part j) hstep]
  simp

theorem mem_traces_merged {is : List Issue} {t : Trace} :
    (∃ i, merged is = some i ∧ t ∈ i.traces) ↔ ∃ i ∈ is, t ∈ i.traces :=
  mem_merged fun _ _ => rfl

def behindAll (chain? : Option Trace) (is : List Issue) : List Issue :=
  chain?.toList.flatMap fun chain => is.map (behind chain)

theorem mem_traces_behindAll {chain? : Option Trace} {is : List Issue} {t : Trace} :
    (∃ i ∈ behindAll chain? is, t ∈ i.traces) ↔
      ∃ chain, chain? = some chain ∧ ∃ u, (∃ i ∈ is, u ∈ i.traces) ∧ chain ++ u = t := by
  constructor
  · rintro ⟨i, hi, ht⟩
    obtain ⟨chain, hchain, hi⟩ := List.mem_flatMap.1 hi
    obtain ⟨own, hown, rfl⟩ := List.mem_map.1 hi
    obtain ⟨u, hu, rfl⟩ := OrdSet.mem_map.1 ht
    exact ⟨chain, Option.mem_toList.1 hchain, u, ⟨own, hown, hu⟩, rfl⟩
  · rintro ⟨chain, rfl, u, ⟨own, hown, hu⟩, rfl⟩
    exact ⟨_, List.mem_flatMap.2 ⟨chain, List.mem_singleton_self chain, List.mem_map_of_mem hown⟩,
      OrdSet.mem_map.2 ⟨u, hu, rfl⟩⟩

/-- The chain in front can be read off what issues with traces are merged into. -/
theorem chain_eq_of_merged_eq {is : List Issue} (his : ∃ u, ∃ i ∈ is, u ∈ i.traces)
    {chain? chain?' : Option Trace}
    (h : merged (behindAll chain? is) = merged (behindAll chain?' is)) : chain? = chain?' := by
  have htraces (t : Trace) :
      (∃ chain, chain? = some chain ∧ ∃ u, (∃ i ∈ is, u ∈ i.traces) ∧ chain ++ u = t) ↔
        ∃ chain, chain?' = some chain ∧ ∃ u, (∃ i ∈ is, u ∈ i.traces) ∧ chain ++ u = t := by
    rw [← mem_traces_behindAll, ← mem_traces_behindAll, ← mem_traces_merged, ← mem_traces_merged, h]
  obtain ⟨u, hu⟩ := his
  cases chain? with
  | none =>
    cases chain?' with
    | none => rfl
    | some chain' =>
      obtain ⟨_, hnone, -⟩ := (htraces (chain' ++ u)).2 ⟨chain', rfl, u, hu, rfl⟩
      cases hnone
  | some chain =>
    obtain ⟨chain', rfl, -⟩ := (htraces (chain ++ u)).1 ⟨chain, rfl, u, hu, rfl⟩
    simp only [Option.some.injEq, exists_eq_left'] at htraces
    exact congrArg some (eq_of_append_iff ⟨u, hu⟩ htraces)

end Issue

namespace Analysis

variable {a b : Analysis} {w w' : Course} {callees : String → Callee} {m : Method} {j : MethodId}

def effects (a : Analysis) : EffectIndex :=
  EffectIndex.build a.program (CallGraph.build a.program) a.kinds

/-- The issues of a method with what is known about callees, before those with the same key are
merged. -/
def issuesIn (a : Analysis) (callees : String → Callee) (m : Method) : List Issue :=
  let found := (a.verdict callees m).matched
  found.issues ++ a.effects.gate found.deferred

theorem exists_hit (hr : a.rules.WellFormed) {f : Finding}
    (hf : f ∈ (a.verdict callees m).matched.findings) :
    ∃ o h, h.rule ∈ a.rules.rules ∧ f = a.matcher.finding m o h :=
  a.matcher.exists_hit_of_mem_findings hr hf

theorem of_mem_issues (hr : a.rules.WellFormed) {i : Issue}
    (hi : i ∈ (a.verdict callees m).matched.issues) :
    ∃ o h, h.rule ∈ a.rules.rules ∧ h.rule.effectSources = none ∧ i = a.matcher.issue m o h := by
  obtain ⟨f, hf, hfi⟩ := List.mem_filterMap.1 hi
  obtain ⟨o, h, hrule, rfl⟩ := exists_hit hr hf
  refine ⟨o, h, hrule, ?_⟩
  unfold Matcher.finding at hfi
  cases heffects : h.rule.effectSources with
  | none =>
    rw [heffects] at hfi
    exact ⟨rfl, (Option.some.inj hfi).symm⟩
  | some effects =>
    rw [heffects] at hfi
    cases hfi

theorem of_mem_deferred (hr : a.rules.WellFormed) {d : DeferredIssue}
    (hd : d ∈ (a.verdict callees m).matched.deferred) :
    ∃ o h, h.rule ∈ a.rules.rules ∧ h.rule.effectSources = some d.effectSources ∧
      d.method = m.id ∧ d.issue = a.matcher.issue m o h := by
  obtain ⟨f, hf, hfd⟩ := List.mem_filterMap.1 hd
  obtain ⟨o, h, hrule, rfl⟩ := exists_hit hr hf
  refine ⟨o, h, hrule, ?_⟩
  unfold Matcher.finding at hfd
  cases heffects : h.rule.effectSources with
  | none =>
    rw [heffects] at hfd
    cases hfd
  | some effects =>
    rw [heffects] at hfd
    cases hfd
    exact ⟨rfl, rfl, rfl⟩

/-- The issues of a method carry its name. -/
theorem method_of_mem_issuesIn (hr : a.rules.WellFormed) {i : Issue} (hi : i ∈ a.issuesIn callees m) :
    i.method = m.name := by
  rcases List.mem_append.1 hi with hi | hi
  · obtain ⟨o, h, -, -, rfl⟩ := of_mem_issues hr hi
    rfl
  · obtain ⟨d, hd, hgate⟩ := List.mem_filterMap.1 hi
    obtain ⟨chain, -, rfl⟩ := Option.map_eq_some_iff.1 hgate
    obtain ⟨o, h, -, -, -, hissue⟩ := of_mem_deferred hr hd
    exact congrArg Issue.method hissue

theorem issuesIn_of_not_hasBody (h : m.hasBody = false) : a.issuesIn callees m = [] := by
  have hbody : m.body = none := Option.not_isSome_iff_eq_none.1 (by simpa [Method.hasBody] using h)
  have hrun : (MethodAnalysis.run ⟨m, a.heuristics, callees⟩).observations = [] := by
    unfold MethodAnalysis.run
    simp only [hbody]
  have hfindings : (a.verdict callees m).matched.findings = [] := by
    show (a.matcher.check m (MethodAnalysis.run ⟨m, a.heuristics, callees⟩).observations
      ∅).1.findings = []
    rw [hrun]
    rfl
  rw [issuesIn, Matched.issues, Matched.deferred, hfindings]
  rfl

/-- What is found in all methods has a key where what is found in the method that the key names has
it. -/
theorem filter_flatMap_key (hp : a.program.WellFormed) (hr : a.rules.WellFormed) (k : Issue.Key)
    {f : Method → List Issue} (hf : ∀ m, ∀ i ∈ f m, i ∈ a.issuesIn callees m) :
    ((a.program.methods.filter Method.hasBody).flatMap f).filter (fun i => i.key = k) =
      ((a.program.lookup k.2.2.2.1).toList.flatMap f).filter fun i => i.key = k := by
  have hnodup : a.program.methods.Nodup := List.Nodup.of_map _ hp.names
  have hbodiless (m : Method) (hm : m.hasBody = false) : f m = [] :=
    List.eq_nil_iff_forall_not_mem.2 fun i hi => by
      have := hf m i hi
      rw [issuesIn_of_not_hasBody hm] at this
      cases this
  have hother {m : Method} (hm : m.name ≠ k.2.2.2.1) : (f m).filter (fun i => i.key = k) = [] :=
    List.filter_eq_nil_iff.2 fun i hi hkey => hm <| by
      rw [← method_of_mem_issuesIn hr (hf m i hi), ← of_decide_eq_true hkey]
      rfl
  rw [flatMap_filter_of_nil hbodiless, List.filter_flatMap]
  cases hlookup : a.program.lookup k.2.2.2.1 with
  | none =>
    refine List.flatMap_eq_nil_iff.2 fun m hm => hother fun hname => ?_
    rw [← hname, hp.lookup_name hm] at hlookup
    cases hlookup
  | some m =>
    obtain ⟨hm, hname⟩ := Program.mem_of_lookup hlookup
    rw [flatMap_eq_of_unique hnodup hm fun m' hm' hne => hother fun hname' =>
      hne (hp.eq_of_name hm' hm (hname'.trans hname.symm))]
    simp

/-- The issue with a key is merged from the issues in the method that the key names. -/
theorem get?_issuesOf (hp : a.program.WellFormed) (hr : a.rules.WellFormed) (k : Issue.Key) :
    (a.issuesOf ((a.program.methods.filter Method.hasBody).map (a.verdict callees))).get? k =
      Issue.merged (((a.program.lookup k.2.2.2.1).toList.flatMap (a.issuesIn callees)).filter
        fun i => i.key = k) := by
  let direct (m : Method) : List Issue := (a.verdict callees m).matched.issues
  let gated (m : Method) : List Issue :=
    a.effects.gate (a.verdict callees m).matched.deferred
  have hdirect := filter_flatMap_key hp hr k (f := direct) fun _ _ hi =>
    List.mem_append.2 (.inl hi)
  have hgated := filter_flatMap_key hp hr k (f := gated) fun _ _ hi =>
    List.mem_append.2 (.inr hi)
  have hgate : a.effects.gate ((a.program.methods.filter Method.hasBody).flatMap
      fun m => (a.verdict callees m).matched.deferred) =
        (a.program.methods.filter Method.hasBody).flatMap gated := List.filterMap_flatMap
  have hissues : a.issuesOf ((a.program.methods.filter Method.hasBody).map
      (a.verdict callees)) =
        (∅ : Issues).addAll ((a.program.methods.filter Method.hasBody).flatMap direct ++
          (a.program.methods.filter Method.hasBody).flatMap gated) := by
    rw [← hgate]
    simp only [issuesOf, List.flatMap_map, Issues.addAll, List.foldl_append]
    rfl
  have hget := OrdMap.get?_foldl_addKeyed Issue.key Issue.merge
    ((a.program.methods.filter Method.hasBody).flatMap direct ++
      (a.program.methods.filter Method.hasBody).flatMap gated) ∅ k
  rw [hissues]
  refine Eq.trans hget ?_
  rw [List.filter_append, hdirect, hgated, ← List.filter_append]
  -- one method at most has the name, and its own two lists are its issues
  cases a.program.lookup k.2.2.2.1 with
  | none => rfl
  | some m =>
    simp only [Option.toList_some, List.flatMap_cons, List.flatMap_nil, List.append_nil]
    rfl

/-- The issues with the key of one that asks for an effect all ask for the same effects, and the same
chain is put in front of all their traces. -/
theorem filter_issuesIn (hr : a.rules.WellFormed) {d : DeferredIssue}
    (hd : d ∈ (a.verdict callees m).matched.deferred) :
    (a.issuesIn callees m).filter (fun i => i.key = d.issue.key) =
      Issue.behindAll (a.effects.chain? m.id d.effectSources)
        (((a.verdict callees m).matched.deferred.filter fun d' =>
          d'.issue.key = d.issue.key).map DeferredIssue.issue) := by
  obtain ⟨o, h, hrule, heffects, -, hissue⟩ := of_mem_deferred hr hd
  have hsame {h' : Hit} (hrule' : h'.rule ∈ a.rules.rules) {o' : Observation}
      (hkey : (a.matcher.issue m o' h').key = d.issue.key) : h'.rule = h.rule := by
    rw [hissue] at hkey
    have hcode : h'.rule.code = h.rule.code := congrArg Prod.fst hkey
    have hget := hr.get?_code hrule'
    rw [hcode, hr.get?_code hrule] at hget
    exact (Option.some.inj hget).symm
  have hdirect : (a.verdict callees m).matched.issues.filter
      (fun i => i.key = d.issue.key) = [] := by
    refine List.filter_eq_nil_iff.2 fun i hi hkey => ?_
    obtain ⟨o', h', hrule', hnone, rfl⟩ := of_mem_issues hr hi
    rw [hsame hrule' (of_decide_eq_true hkey), heffects] at hnone
    cases hnone
  have hgated : (a.effects.gate (a.verdict callees m).matched.deferred).filter
      (fun i => i.key = d.issue.key) =
        ((a.verdict callees m).matched.deferred.filter fun d' =>
          d'.issue.key = d.issue.key).filterMap fun d' =>
            (a.effects.chain? m.id d.effectSources).map (d'.issue.behind ·) := by
    have hfilter := a.effects.filter_gate (fun k => k = d.issue.key)
      (a.verdict callees m).matched.deferred
    refine hfilter.trans (List.filterMap_congr fun d' hd' => ?_)
    obtain ⟨hd', hkey⟩ := List.mem_filter.1 hd'
    obtain ⟨o', h', hrule', heffects', hmethod', hissue'⟩ := of_mem_deferred hr hd'
    have hsources : d'.effectSources = d.effectSources := by
      rw [hsame hrule' (hissue' ▸ of_decide_eq_true hkey), heffects] at heffects'
      exact (Option.some.inj heffects').symm
    rw [hmethod', hsources]
    rfl
  rw [issuesIn, List.filter_append, hdirect, hgated, List.nil_append]
  cases a.effects.chain? m.id d.effectSources with
  | none => simp [Issue.behindAll]
  | some chain => simp [Issue.behindAll]

/-! ### Two orders -/

/-- The same chains lead to the methods that have issues which ask for an effect. -/
def SameChains (a b : Analysis) (callees : String → Callee) : Prop :=
  ∀ m ∈ a.program.methods, ∀ m' ∈ b.program.methods, m'.name = m.name →
    ∀ d ∈ (a.verdict callees m).matched.deferred,
      a.effects.chain? m.id d.effectSources = b.effects.chain? m'.id d.effectSources

instance (a b : Analysis) (callees : String → Callee) : Decidable (a.SameChains b callees) :=
  inferInstanceAs (Decidable (∀ m ∈ a.program.methods, ∀ m' ∈ b.program.methods, m'.name = m.name →
    ∀ d ∈ (a.verdict callees m).matched.deferred,
      a.effects.chain? m.id d.effectSources = b.effects.chain? m'.id d.effectSources))

section Reordered

variable (h : a.Reordered b)

include h

/-- With the same callees a method has the same findings. -/
theorem Reordered.findings_eq (m : Method) (j : MethodId) :
    (b.verdict callees (m.withId j)).matched.findings =
      (a.verdict callees m).matched.findings.map (Finding.moved j) := by
  rw [(b.verdict_withId callees m j).2, ← h.verdict_eq]

theorem Reordered.issues_eq (m : Method) (j : MethodId) :
    (b.verdict callees (m.withId j)).matched.issues = (a.verdict callees m).matched.issues := by
  rw [b.verdict_withId_issues, ← h.verdict_eq]

theorem Reordered.deferred_eq (m : Method) (j : MethodId) :
    (b.verdict callees (m.withId j)).matched.deferred =
      (a.verdict callees m).matched.deferred.map fun d => { d with method := j } := by
  rw [Matched.deferred, h.findings_eq, List.filterMap_map, Matched.deferred, List.map_filterMap]
  refine List.filterMap_congr fun f _ => ?_
  cases f <;> rfl

/-- Where the same chains lead to a method, it has the same issues. -/
theorem Reordered.issuesIn_eq (hr : a.rules.WellFormed) {m : Method} (hm : m ∈ a.program.methods)
    {j : MethodId} (hj : m.withId j ∈ b.program.methods) (hchains : a.SameChains b callees) :
    b.issuesIn callees (m.withId j) = a.issuesIn callees m := by
  rw [issuesIn, issuesIn, h.issues_eq, h.deferred_eq]
  refine congrArg (_ ++ ·) ?_
  unfold EffectIndex.gate
  rw [List.filterMap_map]
  refine List.filterMap_congr fun d hd => ?_
  obtain ⟨o, hit, -, -, hmethod, -⟩ := of_mem_deferred hr hd
  have hchain : a.effects.chain? m.id d.effectSources = b.effects.chain? j d.effectSources :=
    hchains m hm _ hj rfl d hd
  rw [Function.comp_apply, hmethod, hchain]

/-- Where a method has the same issues under all keys, the same chains lead to it. -/
theorem Reordered.chain?_eq (hr : a.rules.WellFormed) {m : Method} {j : MethodId}
    {d : DeferredIssue} (hd : d ∈ (a.verdict callees m).matched.deferred)
    (hissues : Issue.merged ((a.issuesIn callees m).filter fun i => i.key = d.issue.key) =
      Issue.merged ((b.issuesIn callees (m.withId j)).filter fun i => i.key = d.issue.key)) :
    a.effects.chain? m.id d.effectSources = b.effects.chain? j d.effectSources := by
  have hd' : { d with method := j } ∈ (b.verdict callees (m.withId j)).matched.deferred := by
    rw [h.deferred_eq]
    exact List.mem_map_of_mem hd
  have hown : ((b.verdict callees (m.withId j)).matched.deferred.filter fun d' =>
      d'.issue.key = d.issue.key).map DeferredIssue.issue =
        ((a.verdict callees m).matched.deferred.filter fun d' =>
          d'.issue.key = d.issue.key).map DeferredIssue.issue := by
    rw [h.deferred_eq, List.filter_map, List.map_map]
    rfl
  have hfilter' := filter_issuesIn (h.rules ▸ hr) hd'
  rw [hown] at hfilter'
  rw [filter_issuesIn hr hd, hfilter'] at hissues
  have hmem : d ∈ (a.verdict callees m).matched.deferred.filter fun d' =>
      d'.issue.key = d.issue.key := List.mem_filter.2 ⟨hd, decide_eq_true rfl⟩
  obtain ⟨u, hu⟩ : ∃ u, u ∈ d.issue.traces := by
    obtain ⟨o, hit, -, -, -, hissue⟩ := of_mem_deferred hr hd
    rw [hissue]
    exact ⟨_, OrdSet.mem_ofList.2 (List.mem_singleton_self _)⟩
  exact Issue.chain_eq_of_merged_eq ⟨u, d.issue, List.mem_map_of_mem hmem, hu⟩ hissues

end Reordered

def issueMap (a : Analysis) (callees : String → Callee) : Issues :=
  a.issuesOf ((a.program.methods.filter Method.hasBody).map (a.verdict callees))

theorem issueMap_values_eq_iff {callees' : String → Callee} :
    (a.issueMap callees).values = (b.issueMap callees').values ↔
      ∀ k, (a.issueMap callees).get? k = (b.issueMap callees').get? k := by
  constructor
  · intro hvalues k
    have hmaps : a.issueMap callees = b.issueMap callees' :=
      (keyed_issuesOf _).ext (keyed_issuesOf _) hvalues
    rw [hmaps]
  · exact fun hget => congrArg OrdMap.values (OrdMap.ext hget)

/-- With the same callees the issues are the same if and only if the same chains lead to the methods
that have issues which ask for an effect. -/
theorem Reordered.issueMap_eq_iff (h : a.Reordered b) (hp : a.program.WellFormed)
    (hq : b.program.WellFormed) (hr : a.rules.WellFormed) :
    (∀ k, (a.issueMap callees).get? k = (b.issueMap callees).get? k) ↔
      a.SameChains b callees := by
  have hr' : b.rules.WellFormed := h.rules ▸ hr
  constructor
  · intro hget m hm m' hm' hname d hd
    obtain ⟨j, hj⟩ := h.program.exists_partner hm
    obtain rfl : m' = m.withId j := hq.eq_of_name hm' hj hname
    have hmethod : d.issue.key.2.2.2.1 = m.name := by
      obtain ⟨o, hit, -, -, -, hissue⟩ := of_mem_deferred hr hd
      rw [hissue]
      rfl
    have hissues := hget d.issue.key
    rw [issueMap, issueMap, get?_issuesOf hp hr, get?_issuesOf hq hr', hmethod,
      hp.lookup_name hm, show b.program.lookup m.name = some (m.withId j) from hq.lookup_name hj]
      at hissues
    simp only [Option.toList_some, List.flatMap_cons, List.flatMap_nil, List.append_nil] at hissues
    exact h.chain?_eq hr hd hissues
  · intro hchains k
    rw [issueMap, issueMap, get?_issuesOf hp hr, get?_issuesOf hq hr']
    have hfound : (b.program.lookup k.2.2.2.1).toList.flatMap (b.issuesIn callees) =
        (a.program.lookup k.2.2.2.1).toList.flatMap (a.issuesIn callees) := by
      cases hlookup : a.program.lookup k.2.2.2.1 with
      | none =>
        cases hlookup' : b.program.lookup k.2.2.2.1 with
        | none => rw [Option.toList_none, List.flatMap_nil, List.flatMap_nil]
        | some m =>
          obtain ⟨j, hj⟩ := h.program.symm.lookup hp hlookup'
          rw [hlookup] at hj
          cases hj
      | some m =>
        obtain ⟨j, hj⟩ := h.program.lookup hq hlookup
        have hissues : b.issuesIn callees (m.withId j) = a.issuesIn callees m :=
          h.issuesIn_eq hr (Program.mem_of_lookup hlookup).1 (Program.mem_of_lookup hj).1 hchains
        rw [hj]
        show b.issuesIn callees (m.withId j) ++ [] = a.issuesIn callees m ++ []
        rw [hissues]
    rw [hfound]

/-- The order of the methods does not matter to the result of a run without conditions if and only if
what each run infers about recursive methods on its way is in the result of the other, and the same
chains of calls carry effects to the methods with issues that ask for one. In either order the
components may be found in any order that has callees first. -/
theorem run_reordered (h : a.Reordered b) (hp : a.program.WellFormed) (hq : b.program.WellFormed)
    (hr : a.rules.WellFormed) (hw : w.Finds a.program) (hw' : w'.Finds b.program)
    (hrun : (a.runAlong w).conditions = []) (hrun' : (b.runAlong w').conditions = []) :
    ((a.runAlong w).models = (b.runAlong w').models ∧
        (a.runAlong w).issues = (b.runAlong w').issues) ↔
      (a.AbsorbedBy w (b.runAlong w') ∧ b.AbsorbedBy w' (a.runAlong w)) ∧
        a.SameChains b (a.runAlong w).callee := by
  have ha := thorough_of_conditions_eq_nil hp hw hrun
  have hb := thorough_of_conditions_eq_nil hq hw' hrun'
  rw [← h.models_eq_iff ha hb]
  refine and_congr_right fun hmodels => ?_
  have hcallee : (b.runAlong w').callee = (a.runAlong w).callee :=
    funext fun name => Result.callee_eq_iff.2 (by rw [hmodels])
  rw [(run_stable hp hw hrun).2.2.1, (run_stable hq hw' hrun').2.2.1, hcallee]
  exact issueMap_values_eq_iff.trans (h.issueMap_eq_iff hp hq hr)

/-- What reads, shows and starts in the example of two methods that call each other. -/
def parities : Program :=
  (((∅ : Program).push "read" [] none
      (some ((∅ : Model).addGeneration .result (.ofKind ⟨0⟩) ∅))).push "show" ["x"] none
      (some ((∅ : Model).addSink (.argument 0) (.ofKind ⟨1⟩) ∅))).push "main" []
    (some (.run ⟨0, none⟩ (.call "read" [] (some "x"))
      (.run ⟨1, none⟩ (.call "odd" ["x"] none) .done)))
    (some ((∅ : Model).addEffectSource ⟨2⟩))

def addEven (p : Program) : Program :=
  p.push "even" ["x"] (some
    (.branch ⟨0, none⟩
      (.run ⟨1, none⟩ (.call "show" ["x"] none) .done)
      (.run ⟨2, none⟩ (.call "odd" ["x"] none) .done) .done)) none

def addOdd (p : Program) : Program :=
  p.push "odd" ["x"] (some (.run ⟨0, none⟩ (.call "even" ["x"] none) .done)) none

def showing (p : Program) : Analysis where
  program := p
  rules := (∅ : RuleSet).push ⟨"shown", 1, "", .direct (OrdSet.ofList [⟨0⟩]) (OrdSet.ofList [⟨1⟩]),
    none, some (OrdSet.ofList [⟨2⟩])⟩
  kinds := ⟨[.named "Source", .named "Sink", .named "Entry"]⟩
  heuristics := {}

theorem run_reordered_parities :
    let a := showing (addOdd (addEven parities))
    let b := showing (addEven (addOdd parities))
    (a.runAlong a.swift).issues.length = 1 ∧
      (a.runAlong a.swift).models = (b.runAlong b.swift).models ∧
      (a.runAlong a.swift).issues = (b.runAlong b.swift).issues := by
  intro a b
  have hparities : parities.WellFormed :=
    ((Program.wellFormed_empty.push rfl _ _ _).push rfl _ _ _).push rfl _ _ _
  have hp : a.program.WellFormed := (hparities.push rfl _ _ _).push rfl _ _ _
  have hq : b.program.WellFormed := (hparities.push rfl _ _ _).push rfl _ _ _
  have hreordered : a.Reordered b :=
    ⟨Program.reordered_push_push parities _ _ _ _ _ _ _ _, rfl, rfl, rfl⟩
  exact ⟨by decide, (run_reordered hreordered hp hq (RuleSet.wellFormed_empty.push rfl)
    (Course.finds_swift hp) (Course.finds_swift hq) (by decide) (by decide)).2
      ⟨⟨by decide, by decide⟩, by decide⟩⟩

def mark : Program :=
  (∅ : Program).push "mark" ["x"] none (some ((∅ : Model).addPropagation {
    input := .argument 0
    output := .result
    transforms := []
    sanitizers := ∅
    aliasing := false
    features := OrdSet.ofList ["marked"] }))

/-- A method that hands back what it is called with, marked, or what `plain` makes of it. -/
def addMarking (p : Program) : Program :=
  p.push "marking" ["x"] (some
    (.branch ⟨0, none⟩
      (.run ⟨1, none⟩ (.call "mark" ["x"] (some "y")) (.leave ⟨2, none⟩ (some "y") .done))
      (.run ⟨3, none⟩ (.call "plain" ["x"] (some "y")) (.leave ⟨4, none⟩ (some "y") .done))
      .done)) none

/-- A method that hands back what it is called with, or what `marking` makes of it. -/
def addPlain (p : Program) : Program :=
  p.push "plain" ["x"] (some
    (.branch ⟨0, none⟩ (.leave ⟨1, none⟩ (some "x") .done)
      (.run ⟨2, none⟩ (.call "marking" ["x"] (some "y")) (.leave ⟨3, none⟩ (some "y") .done))
      .done)) none

/-- The order of two methods that call each other shows in the result. Where `plain` is analyzed
before anything is known about `marking`, it keeps the unmarked propagation that is inferred then. -/
theorem reordered_models_differ :
    ¬ ∀ (a b : Analysis) (w w' : Course), a.Reordered b → a.program.WellFormed →
      b.program.WellFormed → a.rules.WellFormed → a.heuristics.timeoutSeconds = none →
      w.Finds a.program → w'.Finds b.program → (a.runAlong w).conditions = [] →
      (b.runAlong w').conditions = [] →
      (a.runAlong w).models = (b.runAlong w').models ∧
        (a.runAlong w).issues = (b.runAlong w').issues := by
  intro hsame
  let a : Analysis := ⟨addPlain (addMarking mark), ∅, ⟨[]⟩, {}⟩
  let b : Analysis := ⟨addMarking (addPlain mark), ∅, ⟨[]⟩, {}⟩
  have hmark : mark.WellFormed := Program.wellFormed_empty.push rfl _ _ _
  have hp : a.program.WellFormed := (hmark.push rfl _ _ _).push rfl _ _ _
  have hq : b.program.WellFormed := (hmark.push rfl _ _ _).push rfl _ _ _
  have hreordered : a.Reordered b :=
    ⟨Program.reordered_push_push mark _ _ _ _ _ _ _ _, rfl, rfl, rfl⟩
  have hmodels := (hsame a b a.swift b.swift hreordered hp hq RuleSet.wellFormed_empty rfl
    (Course.finds_swift hp) (Course.finds_swift hq) (by decide) (by decide)).1
  have hone : ((a.runAlong a.swift).models.getD "plain" ∅).propagations.size = 1 := by decide
  have htwo : ((b.runAlong b.swift).models.getD "plain" ∅).propagations.size = 2 := by decide
  rw [hmodels, htwo] at hone
  cases hone

end Analysis

end TaintFlow
