import TaintFlow.Proofs.CallOrder
import TaintFlow.Proofs.Traces

/-!
What the traces of issues show. An issue joins the traces of the sources that met a rule and that of
the sink, all recorded by the method that holds the call (`Program.Flow`). If the rule asks for an
effect, a chain of calls by which the effect reaches the method stands in front (`Program.Explains`).
Issues with one key are about one method, so that this is kept when they are merged.
-/

namespace TaintFlow

/-! ### Chains to a method -/

namespace Program

/-- The chain ends with a call of the method with a name, unless it is empty. -/
structure ChainTo (p : Program) (name : String) (t : Trace) : Prop where
  chain : p.Chain t
  last : ∀ s ∈ t.getLast?, s.callee = name

def Flow (p : Program) (limit : Nat) (method : String) (t : Trace) : Prop :=
  ∃ sources sink, t = List.flatten sources ++ sink ∧
    (∀ s ∈ sources, p.Records limit method s) ∧ p.Records limit method sink

def Explains (p : Program) (limit : Nat) (method : String) (t : Trace) : Prop :=
  ∃ effect flow, t = effect ++ flow ∧ p.ChainTo method effect ∧ p.Flow limit method flow

variable {p : Program} {limit : Nat} {method : String} {t : Trace}

theorem chainTo_nil : p.ChainTo method [] := ⟨chain_nil, nofun⟩

/-- A chain goes on with a call in the method that it leads to. -/
theorem ChainTo.concat {s : Step} (ht : p.ChainTo s.method t) (hs : p.HasStep s) :
    p.ChainTo s.callee (t ++ [s]) where
  chain :=
    { steps := List.forall_mem_append.2 ⟨ht.chain.steps, List.forall_mem_singleton.2 hs⟩
      linked := List.isChain_append.2 ⟨ht.chain.linked, .singleton s, by simpa using ht.last⟩ }
  last := by simp

theorem Flow.explains (h : p.Flow limit method t) : p.Explains limit method t :=
  ⟨[], t, rfl, chainTo_nil, h⟩

end Program

/-! ### Effects -/

/-- The callees of the graph are called where it says. -/
theorem CallGraph.of_mem_callees {p : Program} (hp : p.WellFormed) {m : Method}
    (hm : m ∈ p.methods) {call : MethodId × Nat} (h : call ∈ (build p).callees m.id) :
    (call.2, p.nameOf call.1) ∈ m.calls := by
  have hadded : OrdMap.Each (fun k n => (n, p.nameOf k) ∈ m.calls)
      (m.calls.foldl (addCall p) ∅) := by
    refine List.foldlRecOn m.calls _ OrdMap.each_empty fun calls hcalls own hown => ?_
    unfold addCall
    split
    · next callee hcallee =>
      obtain ⟨hmem, hname⟩ := Program.mem_of_lookup hcallee
      refine OrdMap.Each.alter hcalls fun n hn => ?_
      cases hfirst : calls.get? callee.id with
      | some first =>
        rw [hfirst] at hn
        cases hn
        exact hcalls callee.id first hfirst
      | none =>
        rw [hfirst] at hn
        cases hn
        rw [hp.nameOf_id hmem, hname]
        exact hown
    · exact hcalls
  rw [callees_build hp hm] at h
  exact hadded.of_mem h

theorem Trace.mem_of_shortest? {ts : List Trace} {t : Trace} (h : shortest? ts = some t) :
    t ∈ ts := by
  refine List.foldlRecOn (motive := fun best : Option Trace => ∀ t, best = some t → t ∈ ts) ts _
    (fun _ ht => by cases ht) (fun best hbest u hu t ht => ?_) t h
  split at ht
  · exact hbest t ht
  · exact Option.some.inj ht ▸ hu

namespace EffectIndex

variable {p : Program} {t : KindTable} {effect : KindId} {s : Spread}

def Spread.Sound (p : Program) (s : Spread) : Prop :=
  s.chains.Each fun k chain => p.ChainTo (p.nameOf k) chain

theorem Spread.Sound.reach (hs : s.Sound p) {k : MethodId} {chain : Trace}
    (h : p.ChainTo (p.nameOf k) chain) : (s.reach k chain).Sound p := by
  unfold Spread.reach
  split
  · exact hs
  · exact OrdMap.Each.insert hs h

theorem Spread.Sound.extend (hp : p.WellFormed) (hs : s.Sound p) (caller : MethodId) :
    (extend (CallGraph.build p) (step p t effect) s caller).Sound p := by
  refine List.foldlRecOn (motive := Spread.Sound p) _ _ hs fun s hs call hcall => hs.reach ?_
  obtain ⟨m, hm, rfl⟩ := CallGraph.exists_caller hp hcall
  have hchain : p.ChainTo (p.nameOf m.id) (s.chains.getD m.id []) :=
    OrdMap.Each.getD hs Program.chainTo_nil
  refine Program.ChainTo.concat (s := step p t effect m.id call) hchain ⟨m, hm, ?_, ?_⟩
  · exact (hp.nameOf_id hm).symm
  · exact CallGraph.of_mem_callees hp hm hcall

theorem spread_sound (hp : p.WellFormed) (rounds : Nat) (hs : s.Sound p) :
    (spread (CallGraph.build p) (step p t effect) rounds s).Each fun k chain =>
      p.ChainTo (p.nameOf k) chain := by
  induction rounds generalizing s with
  | zero => exact hs
  | succ rounds ih =>
    have hnext : (s.frontier.foldl (extend (CallGraph.build p) (step p t effect))
        ⟨s.chains, []⟩).Sound p :=
      List.foldlRecOn (motive := Spread.Sound p) s.frontier _ hs
        fun _ hs caller _ => hs.extend hp caller
    unfold spread
    simp only
    split
    · exact hnext
    · exact ih hnext

/-- A chain by which an effect reaches a method leads to the method. -/
theorem chainTo_of_chain? (hp : p.WellFormed) {k : MethodId} {effects : OrdSet KindId}
    {chain : Trace} (h : (build p (CallGraph.build p) t).chain? k effects = some chain) :
    p.ChainTo (p.nameOf k) chain := by
  obtain ⟨effect, -, hchain⟩ := List.mem_filterMap.1 (Trace.mem_of_shortest? h)
  obtain ⟨chains, hchains, hchain⟩ := Option.bind_eq_some_iff.1 hchain
  rw [build, OrdMap.get?_mapValues] at hchains
  obtain ⟨-, -, rfl⟩ := Option.map_eq_some_iff.1 hchains
  refine spread_sound hp p.size ?_ k chain hchain
  exact List.foldlRecOn (motive := Spread.Sound p) (seeds p effect) _ OrdMap.each_empty
    fun _ hs _ _ => hs.reach Program.chainTo_nil

end EffectIndex

/-! ### Issues -/

namespace Matched

variable {m : Matched}

theorem mem_issues {i : Issue} : i ∈ m.issues ↔ .issue i ∈ m.findings := by
  refine List.mem_filterMap.trans ⟨fun ⟨f, hf, hi⟩ => ?_, fun h => ⟨_, h, rfl⟩⟩
  cases f <;> cases hi
  exact hf

theorem mem_deferred {d : DeferredIssue} : d ∈ m.deferred ↔ .deferred d ∈ m.findings := by
  refine List.mem_filterMap.trans ⟨fun ⟨f, hf, hd⟩ => ?_, fun h => ⟨_, h, rfl⟩⟩
  cases f <;> cases hd
  exact hf

end Matched

/-- What holds of issues that are added holds of all that are merged from them. -/
theorem Issues.each_addAll {P : Issue → Prop}
    (hmerge : ∀ i j, P i → P j → i.key = j.key → P (i.merge j)) {is : Issues}
    {news : List Issue} (hs : is.Each fun k i => i.key = k ∧ P i) (hnews : ∀ i ∈ news, P i) :
    (is.addAll news).Each fun k i => i.key = k ∧ P i := by
  have hunite (k : Issue.Key) (i j : Issue) (hi : i.key = k ∧ P i) (hj : j.key = k ∧ P j) :
      (i.merge j).key = k ∧ P (i.merge j) :=
    ⟨hi.1, hmerge i j hi.2 hj.2 (hi.1.trans hj.1.symm)⟩
  exact List.foldlRecOn news _ hs fun _ hs i hi => OrdMap.Each.add hs hunite ⟨rfl, hnews i hi⟩

namespace Analysis

variable {a : Analysis} {w : Course} {m : Method}

/-- The traces of a hit are a flow of the method in which it is found. -/
theorem flow_of_hit {o : Observation} (ho : o.Meets (a.traced m)) {h : Hit}
    (hh : h.Meets (a.traced m)) : ∀ t ∈ (a.matcher.issue m o h).traces,
      a.program.Flow a.heuristics.maxTraceLength m.name t := by
  intro t ht
  obtain rfl := List.mem_singleton.1 (OrdSet.mem_ofList.1 ht)
  refine ⟨h.sources.map fun s => s.2.trace, o.info.trace, rfl, fun trace htrace => ?_, ho.sink⟩
  obtain ⟨source, hsource, rfl⟩ := List.mem_map.1 htrace
  obtain ⟨f, -, hf⟩ := hh source hsource
  exact hf

def Explained (a : Analysis) : Finding → Prop
  | .issue i => ∀ t ∈ i.traces, a.program.Flow a.heuristics.maxTraceLength i.method t
  | .deferred d => a.program.nameOf d.method = d.issue.method ∧
      ∀ t ∈ d.issue.traces, a.program.Flow a.heuristics.maxTraceLength d.issue.method t

theorem explained_finding (hp : a.program.WellFormed) (hm : m ∈ a.program.methods)
    {o : Observation} (ho : o.Meets (a.traced m)) {h : Hit} (hh : h.Meets (a.traced m)) :
    a.Explained (a.matcher.finding m o h) := by
  unfold Matcher.finding
  simp only
  split
  · exact ⟨hp.nameOf_id hm, flow_of_hit ho hh⟩
  · exact flow_of_hit ho hh

def Progress.Explained (a : Analysis) (p : Progress) : Prop :=
  p.matched.Each fun _ matched => ∀ f ∈ matched.findings, a.Explained f

theorem finish_explained (hp : a.program.WellFormed)
    (hdeclared : a.program.DeclaredIn a.kinds.size) : (a.finish w).2.Explained a := by
  have ha := upholds_traced hp hdeclared
  -- a skip changes nothing that was found
  refine (run_keeps (R := Progress.Explained a) (fun v hv hexplained => ?_) (fun _ _ _ h => h)
    OrdMap.each_empty).2.2
  obtain ⟨hm, hmeets⟩ := ha.visits_meet hv
  unfold Progress.Explained
  rw [visit_matched]
  refine OrdMap.Each.insert hexplained fun f hf => ?_
  obtain ⟨o, -, ho, h, hh, rfl⟩ := ha.exists_hit hm hmeets hf
  rw [contractsOf_id hp a.traced hm] at ho hh
  exact explained_finding hp hm ho hh

/-- What is found explains all traces of the issues that are made of it. -/
theorem issues_explained (hp : a.program.WellFormed) {p : Progress} (h : p.Explained a) :
    ∀ i ∈ (a.issues (CallGraph.build a.program) p).values, ∀ t ∈ i.traces,
      a.program.Explains a.heuristics.maxTraceLength i.method t := by
  let P (i : Issue) : Prop :=
    ∀ t ∈ i.traces, a.program.Explains a.heuristics.maxTraceLength i.method t
  have hfound : ∀ matched ∈ p.matched.values, ∀ f ∈ matched.findings, a.Explained f := by
    intro matched hmatched
    obtain ⟨k, hk⟩ := OrdMap.mem_values.1 hmatched
    exact h k matched hk
  have hmerge (i j : Issue) (hi : P i) (hj : P j) (hkey : i.key = j.key) : P (i.merge j) := by
    have hmethod : i.method = j.method := congrArg (fun k => k.2.2.2.1) hkey
    exact fun t ht => (OrdSet.mem_union.1 ht).elim (hi t) fun ht => hmethod ▸ hj t ht
  have hdirect : ∀ i ∈ p.matched.values.flatMap Matched.issues, P i := by
    intro i hi t ht
    obtain ⟨matched, hmatched, hi⟩ := List.mem_flatMap.1 hi
    exact Program.Flow.explains (hfound matched hmatched _ (Matched.mem_issues.1 hi) t ht)
  have hgated : ∀ i ∈ (EffectIndex.build a.program (CallGraph.build a.program) a.kinds).gate
      (p.matched.values.flatMap Matched.deferred), P i := by
    intro i hi t ht
    obtain ⟨d, hd, hi⟩ := List.mem_filterMap.1 hi
    obtain ⟨chain, hchain, rfl⟩ := Option.map_eq_some_iff.1 hi
    obtain ⟨matched, hmatched, hd⟩ := List.mem_flatMap.1 hd
    obtain ⟨hmethod, hflows⟩ := hfound matched hmatched _ (Matched.mem_deferred.1 hd)
    obtain ⟨flow, hflow, rfl⟩ := OrdSet.mem_map.1 ht
    exact ⟨chain, flow, rfl, hmethod ▸ EffectIndex.chainTo_of_chain? hp hchain, hflows flow hflow⟩
  intro i hi
  obtain ⟨k, hk⟩ := OrdMap.mem_values.1 hi
  exact (Issues.each_addAll hmerge (Issues.each_addAll hmerge OrdMap.each_empty hdirect) hgated
    k i hk).2

/-- Every trace is a chain of calls up to the limit: those of the generations and sinks of every
summary at every moment, which start in the method unless they have reached the limit, and so those
of the resulting models. The traces of issues join such traces, behind a chain by which an effect
reaches the method. The components may come in any order, and some of them too late. -/
theorem run_records (hp : a.program.WellFormed) (hdeclared : a.program.DeclaredIn a.kinds.size)
    (w : Course) :
    (∀ p ∈ a.moments w, ∀ m ∈ a.program.methods, ∀ model, p.summaries.get? m.id = some model →
      ∀ t ∈ model.traces, a.program.Records a.heuristics.maxTraceLength m.name t) ∧
    (∀ name model, (a.runAlong w).models.get? name = some model →
      ∀ t ∈ model.traces, a.program.Records a.heuristics.maxTraceLength name t) ∧
    ∀ issue ∈ (a.runAlong w).issues, ∀ t ∈ issue.traces,
      a.program.Explains a.heuristics.maxTraceLength issue.method t := by
  have ha := upholds_traced hp hdeclared
  refine ⟨fun p hmoment m hm model hmodel => ?_, fun name model hmodel => ?_,
    fun issue hissue => ?_⟩
  · have hmeets : model.Meets (contractsOf a.program a.traced m.id) :=
      ha.moments_meet p hmoment m.id model hmodel
    rw [contractsOf_id hp a.traced hm] at hmeets
    exact hmeets.records
  · obtain ⟨p, hmoment, k, hname, hmodel⟩ := exists_moment hmodel
    have hrecords := Model.Meets.records (ha.moments_meet p hmoment k model hmodel)
    rwa [name_methodOf, hname] at hrecords
  · rw [issues_runAlong] at hissue
    exact issues_explained hp (finish_explained hp hdeclared) issue hissue

theorem run_records_echo :
    let r := echo.runAlong echo.swift
    (r.issues.map fun i => i.traces.toList) =
        [[[⟨"main", 0, "read", "Return"⟩, ⟨"main", 1, "echo", "Argument(0)"⟩,
          ⟨"echo", 0, "show", "Argument(0)"⟩]]] ∧
      ∀ issue ∈ r.issues, ∀ t ∈ issue.traces,
        echo.program.Explains echo.heuristics.maxTraceLength issue.method t :=
  ⟨by decide, (run_records echo_wellFormed echo_declaredIn echo.swift).2.2⟩

end Analysis

end TaintFlow
