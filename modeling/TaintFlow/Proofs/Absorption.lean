import TaintFlow.Proofs.CallSources
import TaintFlow.Proofs.Reordering

/-!
Where the order of the methods shows in the models. A method that is not recursive is analyzed once,
when its callees have their final summaries, so its summary does not depend on the order. A recursive
one is also analyzed with intermediate summaries, which depend on the order, and what is inferred from
them stays. The models of two runs are the same if and only if what each infers on its way is in the
result of the other (`AbsorbedBy`): `Reordered.models_eq_iff`.
-/

namespace TaintFlow

namespace Analysis

variable {a b : Analysis} {w w' : Course} {r : Result} {m : Method} {i j : MethodId}
  {p p' : Progress}

/-- Analyses that differ only in the order of the methods. -/
structure Reordered (a b : Analysis) : Prop where
  program : a.program.Reordered b.program
  rules : a.rules = b.rules
  kinds : a.kinds = b.kinds
  heuristics : a.heuristics = b.heuristics

theorem Reordered.symm (h : a.Reordered b) : b.Reordered a :=
  ⟨h.program.symm, h.rules.symm, h.kinds.symm, h.heuristics.symm⟩

theorem Reordered.verdict_eq (h : a.Reordered b) : a.verdict = b.verdict := by
  obtain ⟨program, rules, kinds, heuristics⟩ := a
  obtain ⟨-, rfl, rfl, rfl⟩ := h
  rfl

/-! ### Components -/

def component (a : Analysis) (m : Method) : Component :=
  CallGraph.componentOf (CallGraph.build a.program).reaches m.id

theorem component_mem_order (hp : a.program.WellFormed) (hw : w.Finds a.program)
    (hm : m ∈ a.program.methods) : a.component m ∈ a.order w :=
  (mem_order hp hw).2 (CallGraph.mem_components.2
    ⟨m.id, (CallGraph.mem_methods_build hp).2 ⟨m, hm, rfl⟩, rfl⟩)

theorem mem_component (hp : a.program.WellFormed) (hm : m ∈ a.program.methods) {k : MethodId} :
    k ∈ a.component m ↔ (CallGraph.build a.program).Reaches m.id k ∧
      (CallGraph.build a.program).Reaches k m.id :=
  CallGraph.mem_componentOf (CallGraph.closed_build hp)
    ((CallGraph.mem_methods_build hp).2 ⟨m, hm, rfl⟩)

theorem component_eq (hp : a.program.WellFormed) (hm : m ∈ a.program.methods) {k : Method}
    (hk : k.id ∈ a.component m) : a.component k = a.component m :=
  CallGraph.componentOf_eq (CallGraph.closed_build hp)
    ((CallGraph.mem_methods_build hp).2 ⟨m, hm, rfl⟩) hk

def isRecursive (a : Analysis) (m : Method) : Bool :=
  (CallGraph.build a.program).isRecursive (a.component m)

theorem isRecursive_iff (hp : a.program.WellFormed) (hm : m ∈ a.program.methods) :
    a.isRecursive m = true ↔
      ∃ k, (CallGraph.build a.program).Calls m.id k ∧
        (CallGraph.build a.program).Reaches k m.id :=
  CallGraph.isRecursive_componentOf_iff (CallGraph.closed_build hp)
    ((CallGraph.mem_methods_build hp).2 ⟨m, hm, rfl⟩)

/-- A method of a part is recursive in every program that has the part. -/
theorem isRecursive_of_shares {names : String → Bool} (h : a.program.Shares names b.program)
    (hp : a.program.WellFormed) (hq : b.program.WellFormed) (hm : m ∈ a.program.methods)
    (hname : names m.name = true) (hj : m.withId j ∈ b.program.methods)
    (hrec : a.isRecursive m = true) : b.isRecursive (m.withId j) = true := by
  obtain ⟨k, hcalls, hreaches⟩ := (isRecursive_iff hp hm).1 hrec
  obtain ⟨k, hk, rfl, hname', l, hl, hcalls⟩ := h.calls hp hq hm hname hj hcalls
  exact (isRecursive_iff hq hj).2
    ⟨l, hcalls, (h.reaches_iff hp hq hk hname' hl hm hj).2 hreaches⟩

/-- A method is recursive in any order. -/
theorem Reordered.isRecursive_partner (h : a.Reordered b) (hp : a.program.WellFormed)
    (hq : b.program.WellFormed) (hm : m ∈ a.program.methods)
    (hj : m.withId j ∈ b.program.methods) (hrec : a.isRecursive m = true) :
    b.isRecursive (m.withId j) = true :=
  isRecursive_of_shares h.program.shares hp hq hm rfl hj hrec

/-! ### Methods that are not recursive -/

/-- The summary of a method that is not recursive is its declared model, joined with what its body
comes to with the final summaries. -/
theorem finish_of_not_recursive (ha : a.Thorough w) (hm : m ∈ a.program.methods)
    (hrec : a.isRecursive m = false) :
    (a.finish w).2.summaries.getD m.id ∅ =
      if m.hasBody then (m.declared.getD ∅).join (a.verdict (a.callee (a.finish w).2) m).model
      else m.declared.getD ∅ := by
  have hp := ha.wellFormed
  have honce : ¬ (CallGraph.build a.program).isRecursive (a.component m) = true :=
    Bool.eq_false_iff.1 hrec
  have hself : m.id ∈ a.component m := (mem_component hp hm).2 ⟨.refl, .refl⟩
  obtain ⟨hsingle, hcalls⟩ := CallGraph.eq_singleton_of_not_isRecursive hself hrec
  obtain ⟨p, hturn⟩ := exists_turn ha (component_mem_order hp ha.finds hm)
  have hstart : p.summaries.getD m.id ∅ = m.declared.getD ∅ := by
    rw [OrdMap.getD, hturn.own m.id hself]
    exact getD_start_summary hp hm
  have hanalyzed : (a.finish w).2.summaries.getD m.id ∅ =
      (a.pass (a.bodies (a.component m)) p).2.summaries.getD m.id ∅ := by
    rw [OrdMap.getD, hturn.after m.id hself, analyzeComponent_snd,
      if_neg honce, OrdMap.getD]
  rw [hanalyzed, hsingle, bodies_singleton hp hm]
  split
  · show (a.visit m p).2.summaries.getD m.id ∅ = _
    rw [visit_getD_summary, hstart]
    refine congrArg (fun v => Model.join _ (Verdict.model v)) (a.verdict_congr fun call hcall => ?_)
    refine callee_congr fun callee hcallee => ?_
    have hcall : (CallGraph.build a.program).Calls m.id callee.id :=
      CallGraph.calls_of_lookup hp hm hcall hcallee
    refine hturn.callees m.id hself callee.id hcall fun hmem => ?_
    rw [hsingle, List.mem_singleton] at hmem
    exact hcalls (hmem ▸ hcall)
  · exact hstart

/-! ### Recursive methods -/

/-- What a run infers about recursive methods is absorbed by a result: where all that is known about
the callees is below what the result says, so is the inferred model. -/
def AbsorbedBy (a : Analysis) (w : Course) (r : Result) : Prop :=
  ∀ v ∈ a.visits w, a.isRecursive v.1 = true →
    (∀ call ∈ v.1.calls, (a.callee v.2 call.2).le (r.callee call.2) = true) →
    (a.verdict (a.callee v.2) v.1).model.le (r.models.getD v.1.name ∅) = true

instance (a : Analysis) (w : Course) (r : Result) : Decidable (a.AbsorbedBy w r) :=
  inferInstanceAs (Decidable (∀ v ∈ a.visits w, a.isRecursive v.1 = true →
    (∀ call ∈ v.1.calls, (a.callee v.2 call.2).le (r.callee call.2) = true) →
    (a.verdict (a.callee v.2) v.1).model.le (r.models.getD v.1.name ∅) = true))

/-- A visit keeps what is known about the method below a model that the verdict brings nothing new
to. -/
theorem visit_callee_le (hp : a.program.WellFormed) (hm : m ∈ a.program.methods) {model : Model}
    (hverdict : (a.verdict (a.callee p) m).model.le model = true)
    (hle : (a.callee p m.name).le (.modeled model) = true) :
    (a.callee (a.visit m p).2 m.name).le (.modeled model) = true := by
  rw [callee_name hp hm] at hle ⊢
  cases hsummary : p.summaries.get? m.id with
  | none =>
    rw [hsummary] at hle
    cases hle
  | some summary =>
    rw [hsummary] at hle
    rw [visit_summary hsummary]
    exact Model.join_le hle hverdict

/-- Since the turn of a component began nothing has changed but what is known about its methods, and
that is below what a result says. -/
structure Covered (a : Analysis) (r : Result) (c : Component) (p p' : Progress) : Prop where
  same : SameOutside (a.analyzedIds c) p p'
  below : ∀ k ∈ a.program.methods, k.id ∈ c →
    (a.callee p' k.name).le (r.callee k.name) = true

/-- Two results say the same about the methods that a method reaches and that do not reach it. -/
def SameBelow (a : Analysis) (r r' : Result) (m : Method) : Prop :=
  ∀ k ∈ a.program.methods, (CallGraph.build a.program).Reaches m.id k.id →
    ¬ (CallGraph.build a.program).Reaches k.id m.id → r.callee k.name = r'.callee k.name

/-- All that is inferred is in the models of the result. -/
theorem absorbedBy_of_models_eq (ha : a.Thorough w) (hmodels : (a.runAlong w).models = r.models) :
    a.AbsorbedBy w r := by
  intro v hv _ _
  have hm := (mem_visits ha.wellFormed hv).1
  rw [← hmodels, OrdMap.getD, run_models ha.wellFormed hm]
  exact verdict_le_finish ha.onTime hv

/-- At the end a method is known by the summary under its id in the other order. -/
theorem run_callee_withId (hp : a.program.WellFormed) (hj : m.withId j ∈ a.program.methods) :
    (a.runAlong w).callee m.name =
      if m.hasBody || m.declared.isSome then .modeled ((a.finish w).2.summaries.getD j ∅)
      else .obscure :=
  run_callee_name hp hj

section Reordered

variable (h : a.Reordered b) (ha : a.Thorough w) (hb : b.Thorough w')

include h hb

theorem Reordered.callee_of_hasBody (hm : m ∈ a.program.methods) (hbody : m.hasBody = true) :
    (b.runAlong w').callee m.name = .modeled ((b.runAlong w').models.getD m.name ∅) := by
  obtain ⟨j, hj⟩ := h.program.exists_partner hm
  have hmodel : (b.runAlong w').models.get? m.name = (b.finish w').2.summaries.get? j :=
    run_models hb.wellFormed hj
  rw [run_callee_withId hb.wellFormed hj, hbody, OrdMap.getD, OrdMap.getD, hmodel]
  rfl

include ha

/-- What is known about a method at first is below what is known about it at the end of the other
run. -/
theorem Reordered.start_callee_le (hm : m ∈ a.program.methods) :
    (a.callee a.start m.name).le ((b.runAlong w').callee m.name) = true := by
  obtain ⟨j, hj⟩ := h.program.exists_partner hm
  have hgrown := (finish_leads hb.onTime).summaries_le j
  have hstart : b.start.summaries.getD j ∅ = m.declared.getD ∅ :=
    getD_start_summary hb.wellFormed hj
  rw [hstart] at hgrown
  rw [start_callee_name ha.wellFormed hm, run_callee_withId hb.wellFormed hj]
  split
  · exact hgrown
  · rfl

theorem Reordered.callee_none {name : String} (hname : a.program.lookup name = none) :
    (b.runAlong w').callee name = .obscure := by
  refine run_callee_none hb.wellFormed ?_
  cases hlookup : b.program.lookup name with
  | none => rfl
  | some m =>
    obtain ⟨j, hj⟩ := h.program.symm.lookup ha.wellFormed hlookup
    rw [hname] at hj
    cases hj

/-- What is known when the turn of a component begins is below what the other run ends with. -/
theorem Reordered.covered_turn {c : Component} (hturn : a.Turn w c p) :
    a.Covered (b.runAlong w') c p p where
  same := .refl _ p
  below k hk hmem := by
    have hp := ha.wellFormed
    have hown : a.callee p k.name = a.callee a.start k.name := by
      rw [callee_name hp hk, callee_name hp hk, hturn.own k.id hmem]
    rw [hown]
    exact h.start_callee_le ha hb hk

/-- During the turn of a component all that is known about callees is below what the other run ends
with, if the runs end with the same about callees outside the component. -/
theorem Reordered.callees_le (hm : m ∈ a.program.methods) (hturn : a.Turn w (a.component m) p)
    (hcovered : a.Covered (b.runAlong w') (a.component m) p p')
    (hlower : a.SameBelow (a.runAlong w) (b.runAlong w') m) {k : Method}
    (hk : k ∈ a.program.methods) (hmem : k.id ∈ a.component m) :
    ∀ call ∈ k.calls, (a.callee p' call.2).le ((b.runAlong w').callee call.2) = true := by
  have hp := ha.wellFormed
  intro call hcall
  cases hlookup : a.program.lookup call.2 with
  | none =>
    rw [h.callee_none ha hb hlookup, callee, hlookup]
    rfl
  | some callee =>
    obtain ⟨hcallee, hname⟩ := Program.mem_of_lookup hlookup
    have hcalls : (CallGraph.build a.program).Calls k.id callee.id :=
      CallGraph.calls_of_lookup hp hk hcall hlookup
    rw [← hname]
    by_cases hinside : callee.id ∈ a.component m
    · exact hcovered.below callee hcallee hinside
    · -- the summary is final, and that of a method further down
      have hfinal : a.callee p' callee.name = (a.runAlong w).callee callee.name := by
        rw [run_callee hp, callee_name hp hcallee, callee_name hp hcallee,
          hcovered.same.summaries callee.id fun hmem => hinside (analyzedIds_subset hp hmem),
          hturn.callees k.id hmem callee.id hcalls hinside]
      have hreaches := ((mem_component hp hm).1 hmem).1.tail hcalls
      rw [hfinal, hlower callee hcallee hreaches fun hback =>
        hinside ((mem_component hp hm).2 ⟨hreaches, hback⟩)]
      exact Callee.le_refl _

theorem Reordered.covered_visit (habsorbed : a.AbsorbedBy w (b.runAlong w'))
    (hm : m ∈ a.program.methods) (hrec : a.isRecursive m = true)
    (hlower : a.SameBelow (a.runAlong w) (b.runAlong w') m)
    (hturn : a.Turn w (a.component m) p) {v : Method × Progress}
    (hv : v ∈ a.componentVisits (CallGraph.build a.program) (a.component m) p)
    (hcovered : a.Covered (b.runAlong w') (a.component m) p v.2) :
    a.Covered (b.runAlong w') (a.component m) p (a.visit v.1 v.2).2 := by
  have hp := ha.wellFormed
  obtain ⟨k, p'⟩ := v
  obtain ⟨hk, hmem, hbody⟩ := (mem_bodies hp).1 (mem_componentVisits hv)
  have hrecursive : a.isRecursive k = true := by
    rw [isRecursive, component_eq hp hm hmem]
    exact hrec
  have hverdict := habsorbed (k, p') (hturn.visits _ hv) hrecursive
    (h.callees_le ha hb hm hturn hcovered hlower hk hmem)
  have hanalyzed : k.id ∈ a.analyzedIds (a.component m) :=
    List.mem_map_of_mem (mem_componentVisits hv)
  constructor
  · refine hcovered.same.trans ((a.visit_sameOutside k p').mono ?_)
    exact fun _ hid => List.mem_singleton.1 hid ▸ hanalyzed
  · intro k' hk' hmem'
    have hbound := hcovered.below k' hk' hmem'
    by_cases hid : k'.id = k.id
    · obtain rfl := hp.eq_of_id hk' hk hid
      rw [h.callee_of_hasBody hb hk hbody] at hbound ⊢
      exact visit_callee_le hp hk hverdict hbound
    · rw [callee_name hp hk', visit_summary_of_ne hid, ← callee_name hp hk']
      exact hbound

/-- Where the other run absorbs what is inferred and ends with the same about all callees outside
the component of a recursive method, it ends with at least as much about the method. -/
theorem Reordered.callee_le (habsorbed : a.AbsorbedBy w (b.runAlong w'))
    (hm : m ∈ a.program.methods) (hrec : a.isRecursive m = true)
    (hlower : a.SameBelow (a.runAlong w) (b.runAlong w') m) :
    ((a.runAlong w).callee m.name).le ((b.runAlong w').callee m.name) = true := by
  have hp := ha.wellFormed
  have hself : m.id ∈ a.component m := (mem_component hp hm).2 ⟨.refl, .refl⟩
  obtain ⟨p, hturn⟩ := exists_turn ha (component_mem_order hp ha.finds hm)
  have hend := (analyzeComponent_leads (CallGraph.build a.program) (a.component m) p).keeps
    (fun _ hv => h.covered_visit ha hb habsorbed hm hrec hlower hturn hv)
    (h.covered_turn ha hb hturn)
  have hfinal : (a.runAlong w).callee m.name = a.callee
      (a.analyzeComponent (CallGraph.build a.program) (a.component m) p).2 m.name := by
    rw [run_callee hp, callee_name hp hm, callee_name hp hm, hturn.after m.id hself]
  rw [hfinal]
  exact hend.below m hm hself

/-- A method that is not recursive has the same summary if its callees are known the same. -/
theorem Reordered.callee_eq_of_not_recursive (hm : m ∈ a.program.methods)
    (hrec : a.isRecursive m = false)
    (hcallees : ∀ call ∈ m.calls, (a.runAlong w).callee call.2 = (b.runAlong w').callee call.2) :
    (a.runAlong w).callee m.name = (b.runAlong w').callee m.name := by
  obtain ⟨j, hj⟩ := h.program.exists_partner hm
  have hrec' : b.isRecursive (m.withId j) = false := by
    rw [← Bool.not_eq_true] at hrec ⊢
    exact fun hrec' => hrec <| h.symm.isRecursive_partner (m := m.withId j) (j := m.id)
      hb.wellFormed ha.wellFormed hj hm hrec'
  have hverdict : (b.verdict (b.runAlong w').callee (m.withId j)).model =
      (a.verdict (a.runAlong w).callee m).model := by
    rw [(b.verdict_withId (b.runAlong w').callee m j).1, ← h.verdict_eq, a.verdict_congr hcallees]
  have hsummary := finish_of_not_recursive ha hm hrec
  have hsummary' := finish_of_not_recursive hb hj hrec'
  rw [← run_callee ha.wellFormed] at hsummary
  rw [← run_callee hb.wellFormed, hverdict] at hsummary'
  have hsame : (b.finish w').2.summaries.getD j ∅ = (a.finish w).2.summaries.getD m.id ∅ :=
    Eq.trans hsummary' hsummary.symm
  rw [run_callee_name ha.wellFormed hm, run_callee_withId hb.wellFormed hj, hsame]

/-- Final summaries that bring nothing new to each other are the same. -/
theorem Reordered.callee_antisymm (hm : m ∈ a.program.methods)
    (hle : ((a.runAlong w).callee m.name).le ((b.runAlong w').callee m.name) = true)
    (hge : ((b.runAlong w').callee m.name).le ((a.runAlong w).callee m.name) = true) :
    (a.runAlong w).callee m.name = (b.runAlong w').callee m.name := by
  obtain ⟨j, hj⟩ := h.program.exists_partner hm
  have hover : (m.declared.getD ∅).Over ((a.finish w).2.summaries.getD m.id ∅) :=
    (finish_leads ha.onTime).summaries_over
      (getD_start_summary ha.wellFormed hm ▸ Model.over_self _)
  have hover' : (m.declared.getD ∅).Over ((b.finish w').2.summaries.getD j ∅) :=
    (finish_leads hb.onTime).summaries_over
      ((getD_start_summary hb.wellFormed hj : b.start.summaries.getD j ∅ = m.declared.getD ∅) ▸
        Model.over_self _)
  rw [run_callee_name ha.wellFormed hm, run_callee_withId hb.wellFormed hj] at hle hge ⊢
  by_cases hknown : (m.hasBody || m.declared.isSome) = true
  · simp only [if_pos hknown] at hle hge ⊢
    exact congrArg Callee.modeled (hover.antisymm hover' hle hge)
  · simp only [if_neg hknown]

/-- Runs that absorb each other end with the same about all methods. The induction is on how many
methods a method reaches, so that all callees outside its component come first. -/
theorem Reordered.callee_eq (habsorbed : a.AbsorbedBy w (b.runAlong w'))
    (habsorbed' : b.AbsorbedBy w' (a.runAlong w)) (hm : m ∈ a.program.methods) :
    (a.runAlong w).callee m.name = (b.runAlong w').callee m.name := by
  have hp := ha.wellFormed
  have hq := hb.wellFormed
  let g := CallGraph.build a.program
  have hg : g.Closed := CallGraph.closed_build hp
  induction hsize : (g.reach m.id).size using Nat.strongRecOn generalizing m with
  | _ size ih =>
    have hlower : a.SameBelow (a.runAlong w) (b.runAlong w') m := by
      intro k hk hmk hkm
      exact ih (g.reach k.id).size (hsize ▸ CallGraph.size_reach_lt hg hmk hkm) hk rfl
    cases hrec : a.isRecursive m with
    | false =>
      refine h.callee_eq_of_not_recursive ha hb hm hrec fun call hcall => ?_
      cases hlookup : a.program.lookup call.2 with
      | none =>
        rw [h.callee_none ha hb hlookup, run_callee_none ha.wellFormed hlookup]
      | some callee =>
        obtain ⟨hcallee, hname⟩ := Program.mem_of_lookup hlookup
        have hcalls : g.Calls m.id callee.id :=
          CallGraph.calls_of_lookup hp hm hcall hlookup
        rw [← hname]
        refine hlower callee hcallee (.single hcalls) fun hback => ?_
        rw [(isRecursive_iff hp hm).2 ⟨callee.id, hcalls, hback⟩] at hrec
        cases hrec
    | true =>
      obtain ⟨j, hj⟩ := h.program.exists_partner hm
      refine h.callee_antisymm ha hb hm (h.callee_le ha hb habsorbed hm hrec hlower) ?_
      have hrec' := h.isRecursive_partner hp hq hm hj hrec
      refine h.symm.callee_le (m := m.withId j) hb ha habsorbed' hj hrec' ?_
      intro k hk hreaches hback
      obtain ⟨i, hi⟩ := h.symm.program.exists_partner hk
      refine (hlower (k.withId i) hi ?_ fun hreaches' => hback ?_).symm
      · exact (h.program.reaches_iff (k := k.withId i) hp hq hm hj hi hk).1 hreaches
      · exact (h.program.reaches_iff (m := k.withId i) hp hq hi hk hm hj).2 hreaches'

/-- The models of two runs are the same if and only if the runs absorb each other. -/
theorem Reordered.models_eq_iff :
    (a.runAlong w).models = (b.runAlong w').models ↔
      a.AbsorbedBy w (b.runAlong w') ∧ b.AbsorbedBy w' (a.runAlong w) := by
  constructor
  · intro hmodels
    exact ⟨absorbedBy_of_models_eq ha hmodels, absorbedBy_of_models_eq hb hmodels.symm⟩
  · rintro ⟨habsorbed, habsorbed'⟩
    refine OrdMap.ext fun name => Result.callee_eq_iff.1 ?_
    cases hlookup : a.program.lookup name with
    | none => rw [run_callee_none ha.wellFormed hlookup, h.callee_none ha hb hlookup]
    | some m =>
      obtain ⟨hm, rfl⟩ := Program.mem_of_lookup hlookup
      exact h.callee_eq ha hb habsorbed habsorbed' hm

end Reordered

end Analysis

end TaintFlow
