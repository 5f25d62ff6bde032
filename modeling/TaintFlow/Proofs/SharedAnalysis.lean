import Mathlib.Data.List.Perm.Basic
import TaintFlow.Proofs.Absorption

/-!
The analysis of a shared part. Two programs share the methods with some names, listed in the same
order, and are analyzed with the same rules. A component of the part has the same methods in both
(`Overlaps.bodies_twin`), and when its turn comes, the same is known in both runs about its methods
and those that they call. The turns then go in step (`InStep`), visit by visit, as far as the passes
go. So at the end both runs know the same about every method of the part: `Overlaps.finish`.
-/

namespace TaintFlow

namespace Analysis

/-- Analyses that differ only in the methods without some names, which those with the names do not
call. -/
structure Overlaps (names : String → Bool) (a b : Analysis) : Prop where
  program : a.program.Shares names b.program
  inOrder : a.program.part names = b.program.part names
  rules : a.rules = b.rules
  kinds : a.kinds = b.kinds
  heuristics : a.heuristics = b.heuristics

variable {names : String → Bool} {a b : Analysis} {w w' : Course} {m k : Method}
  {p p' : Progress}

theorem Overlaps.verdict_eq (h : a.Overlaps names b) : a.verdict = b.verdict := by
  obtain ⟨program, rules, kinds, heuristics⟩ := a
  obtain ⟨-, -, rfl, rfl, rfl⟩ := h
  rfl

/-! ### Components -/

/-- The methods of a component with a body are those of the program, in order. -/
theorem bodies_component (hp : a.program.WellFormed) (m : Method) :
    a.bodies (a.component m) =
      a.program.methods.filter fun k => decide (k.id ∈ a.component m) && k.hasBody := by
  have hids : (a.bodies (a.component m)).Pairwise fun k k' => k.id.index < k'.id.index := by
    refine List.Pairwise.filter _ (List.pairwise_filterMap.2 ?_)
    have hascending : (a.component m).Pairwise fun i j => compare i j = .lt :=
      (OrdSet.pairwise_toList _).filter _
    refine hascending.imp fun {i j} hlt k hk k' hk' => ?_
    rw [hp.id_of_method? hk, hp.id_of_method? hk']
    exact Nat.compare_eq_lt.1 hlt
  have hids' := hp.pairwise_ids.filter fun k => decide (k.id ∈ a.component m) && k.hasBody
  have hne {k k' : Method} (hlt : k.id.index < k'.id.index) : k ≠ k' := fun heq =>
    Nat.lt_irrefl _ (heq ▸ hlt)
  refine List.Perm.eq_of_pairwise (fun k k' _ _ hlt hlt' => absurd hlt (Nat.lt_asymm hlt')) hids
    hids' ((List.perm_ext_iff_of_nodup (hids.imp hne) (hids'.imp hne)).2 fun k => ?_)
  rw [mem_bodies hp, List.mem_filter]
  simp

def Near (a : Analysis) (m k : Method) : Prop :=
  k.id ∈ a.component m ∨ ∃ i ∈ a.component m, (CallGraph.build a.program).Calls i k.id

theorem Near.reaches (hp : a.program.WellFormed) (hm : m ∈ a.program.methods) (h : a.Near m k) :
    (CallGraph.build a.program).Reaches m.id k.id := by
  rcases h with hinside | ⟨i, hi, hcalls⟩
  · exact ((mem_component hp hm).1 hinside).1
  · exact ((mem_component hp hm).1 hi).1.tail hcalls

section Overlap

variable (h : a.Overlaps names b) (hp : a.program.WellFormed) (hq : b.program.WellFormed)
  (hm : m ∈ a.program.methods) (hname : names m.name = true)

include h hp hq hm hname

/-- What a method of the part reaches is of the part. -/
theorem Overlaps.names_of_reaches (hk : k ∈ a.program.methods)
    (hreaches : (CallGraph.build a.program).Reaches m.id k.id) : names k.name = true := by
  obtain ⟨k', hk', hid, hname', -⟩ :=
    h.program.reaches hp hq hm hname (h.program.twin_mem hq hm hname) hreaches
  rwa [hp.eq_of_id hk' hk hid] at hname'

theorem Overlaps.mem_component_twin (hk : k ∈ a.program.methods) (hname' : names k.name = true) :
    (b.program.twin k).id ∈ b.component (b.program.twin m) ↔ k.id ∈ a.component m := by
  rw [mem_component hq (h.program.twin_mem hq hm hname), mem_component hp hm,
    h.program.reaches_twin_iff hp hq hm hname hk hname',
    h.program.reaches_twin_iff hp hq hk hname' hm hname]

theorem Overlaps.isRecursive_twin : b.isRecursive (b.program.twin m) = a.isRecursive m := by
  have htwin := h.program.twin_mem hq hm hname
  rw [Bool.eq_iff_iff]
  constructor
  · exact isRecursive_of_shares (m := b.program.twin m) h.program.symm hq hp htwin hname hm
  · exact isRecursive_of_shares h.program hp hq hm hname htwin

/-- A component of the part has the same methods in both programs, in the same order. -/
theorem Overlaps.bodies_twin :
    b.bodies (b.component (b.program.twin m)) =
      (a.bodies (a.component m)).map b.program.twin := by
  have htwin := h.program.twin_mem hq hm hname
  have hinside (k : Method) (hk : k ∈ a.program.methods) (hmem : k.id ∈ a.component m) :
      names k.name = true :=
    h.names_of_reaches hp hq hm hname hk ((mem_component hp hm).1 hmem).1
  have hinside' (k : Method) (hk : k ∈ b.program.methods)
      (hmem : k.id ∈ b.component (b.program.twin m)) : names k.name = true := by
    obtain ⟨k', hk', hid, hname', -⟩ :=
      h.program.symm.reaches (m := b.program.twin m) (j := m.id) hq hp htwin hname hm
        ((mem_component hq htwin).1 hmem).1
    rwa [hq.eq_of_id hk' hk hid] at hname'
  -- nothing is lost when both programs are cut down to the part first
  have hfilter {c : Analysis} {n : Method} (hn : ∀ k ∈ c.program.methods, k.id ∈ c.component n →
      names k.name = true) :
      (c.program.methods.filter fun k => decide (k.id ∈ c.component n) && k.hasBody) =
        (c.program.methods.filter (names ·.name)).filter fun k =>
          decide (k.id ∈ c.component n) && k.hasBody := by
    rw [List.filter_filter]
    refine List.filter_congr fun k hk => ?_
    by_cases hmem : k.id ∈ c.component n
    · simp [hn k hk hmem]
    · simp [hmem]
  rw [bodies_component hp, bodies_component hq, hfilter hinside, hfilter hinside',
    Program.filter_eq_map_twin hq h.inOrder, List.filter_map]
  refine congrArg (List.map _) (List.filter_congr fun k hk => ?_)
  obtain ⟨hk, hname'⟩ := List.mem_filter.1 hk
  have hmem := h.mem_component_twin hp hq hm hname hk hname'
  rw [Function.comp_apply, decide_eq_decide.2 hmem]
  rfl

end Overlap

/-! ### Turns in step -/

/-- During the turn of a component the same is known in both runs about its methods and those that
they call, and its methods have the same issues. -/
structure InStep (a b : Analysis) (m : Method) (p p' : Progress) : Prop where
  summaries : ∀ k ∈ a.program.methods, a.Near m k →
    p'.summaries.get? (b.program.twin k).id = p.summaries.get? k.id
  issues : ∀ k ∈ a.program.methods, k.id ∈ a.component m →
    (p'.matched.get? (b.program.twin k).id).map Matched.issues =
      (p.matched.get? k.id).map Matched.issues

section Overlap

variable (h : a.Overlaps names b) (hp : a.program.WellFormed) (hq : b.program.WellFormed)
  (hm : m ∈ a.program.methods) (hname : names m.name = true)

include h hp hq hm hname

theorem Overlaps.callee_inStep (hstep : a.InStep b m p p') (hk : k ∈ a.program.methods)
    (hmem : k.id ∈ a.component m) {call : Nat × String} (hcall : call ∈ k.calls) :
    b.callee p' call.2 = a.callee p call.2 := by
  have hname' := h.names_of_reaches hp hq hm hname hk ((mem_component hp hm).1 hmem).1
  cases hlookup : a.program.lookup call.2 with
  | none =>
    rw [callee, callee, hlookup, h.program.lookup_none hp hk hname' hcall hlookup]
    rfl
  | some callee =>
    obtain ⟨hcallee, hcalled⟩ := Program.mem_of_lookup hlookup
    have hcalls := CallGraph.calls_of_lookup hp hk hcall hlookup
    have hinside := h.names_of_reaches hp hq hk hname' hcallee (.single hcalls)
    have hlookup' : b.program.lookup call.2 = some (b.program.twin callee) := by
      rw [← hcalled]
      exact hq.lookup_name (h.program.twin_mem hq hcallee hinside)
    rw [callee_of_lookup hlookup, callee_of_lookup hlookup',
      hstep.summaries callee hcallee (.inr ⟨k.id, hmem, hcalls⟩)]

/-- In step, a method and its twin have verdicts with the same model and the same issues. -/
theorem Overlaps.verdict_inStep (hstep : a.InStep b m p p') (hk : k ∈ a.program.methods)
    (hmem : k.id ∈ a.component m) :
    (b.verdict (b.callee p') (b.program.twin k)).model = (a.verdict (a.callee p) k).model ∧
      (b.verdict (b.callee p') (b.program.twin k)).matched.issues =
        (a.verdict (a.callee p) k).matched.issues := by
  have hverdict : a.verdict (a.callee p) k = b.verdict (b.callee p') k := by
    rw [h.verdict_eq]
    exact b.verdict_congr fun call hcall =>
      (h.callee_inStep hp hq hm hname hstep hk hmem hcall).symm
  rw [hverdict]
  exact ⟨(b.verdict_withId _ k _).1, b.verdict_withId_issues _ k _⟩

theorem Overlaps.visit_inStep (hstep : a.InStep b m p p') (hk : k ∈ a.bodies (a.component m)) :
    (b.visit (b.program.twin k) p').1 = (a.visit k p).1 ∧
      a.InStep b m (a.visit k p).2 (b.visit (b.program.twin k) p').2 := by
  obtain ⟨hk, hmem, -⟩ := (mem_bodies hp).1 hk
  have hname' := h.names_of_reaches hp hq hm hname hk ((mem_component hp hm).1 hmem).1
  obtain ⟨hmodel, hissues⟩ := h.verdict_inStep hp hq hm hname hstep hk hmem
  have hsummary := hstep.summaries k hk (.inl hmem)
  have hother {k' : Method} (hk' : k' ∈ a.program.methods) (hnear : a.Near m k') :
      (b.program.twin k').id = (b.program.twin k).id ↔ k'.id = k.id :=
    h.program.twin_id_eq_iff hp hq hk hname' hk'
      (h.names_of_reaches hp hq hm hname hk' (hnear.reaches hp hm))
  refine ⟨?_, fun k' hk' hnear => ?_, fun k' hk' hmem' => ?_⟩
  · rw [visit_grown, visit_grown, hmodel, OrdMap.getD, OrdMap.getD, hsummary]
  · rw [visit_summaries, visit_summaries, hmodel, OrdMap.getD, OrdMap.getD, hsummary]
    split
    · exact hstep.summaries k' hk' hnear
    · simp only [OrdMap.get?_insert, hother hk' hnear, hstep.summaries k' hk' hnear]
  · rw [visit_matched, visit_matched]
    simp only [OrdMap.get?_insert, hother hk' (.inl hmem')]
    split
    · exact congrArg some hissues
    · exact hstep.issues k' hk' hmem'

theorem Overlaps.pass_inStep {ms : List Method} (hms : ∀ k ∈ ms, k ∈ a.bodies (a.component m))
    (hstep : a.InStep b m p p') :
    (b.pass (ms.map b.program.twin) p').1 = (a.pass ms p).1 ∧
      a.InStep b m (a.pass ms p).2 (b.pass (ms.map b.program.twin) p').2 := by
  induction ms generalizing p p' with
  | nil => exact ⟨rfl, hstep⟩
  | cons k ms ih =>
    obtain ⟨hgrown, hvisit⟩ := h.visit_inStep hp hq hm hname hstep (hms k List.mem_cons_self)
    obtain ⟨hothers, hpass⟩ := ih (fun k' hk' => hms k' (List.mem_cons_of_mem k hk')) hvisit
    exact ⟨congrArg₂ or hgrown hothers, hpass⟩

/-- As many passes are made in both runs. -/
theorem Overlaps.stabilize_inStep {ms : List Method}
    (hms : ∀ k ∈ ms, k ∈ a.bodies (a.component m)) (further : Nat) (hstep : a.InStep b m p p') :
    a.InStep b m (a.stabilize ms further p).2
      (b.stabilize (ms.map b.program.twin) further p').2 := by
  induction further generalizing p p' with
  | zero => exact (h.pass_inStep hp hq hm hname hms hstep).2
  | succ further ih =>
    obtain ⟨hgrown, hpass⟩ := h.pass_inStep hp hq hm hname hms hstep
    rw [stabilize, stabilize]
    revert hgrown hpass
    rcases a.pass ms p with ⟨_ | _, p₁⟩ <;>
      rcases b.pass (ms.map b.program.twin) p' with ⟨_ | _, p₁'⟩ <;> rintro ⟨⟩ hpass
    · exact hpass
    · exact ih hpass

theorem Overlaps.analyzeComponent_inStep (hstep : a.InStep b m p p') :
    a.InStep b m (a.analyzeComponent (CallGraph.build a.program) (a.component m) p).2
      (b.analyzeComponent (CallGraph.build b.program) (b.component (b.program.twin m)) p').2 := by
  rw [analyzeComponent_snd, analyzeComponent_snd, h.bodies_twin hp hq hm hname, h.heuristics,
    show (CallGraph.build b.program).isRecursive (b.component (b.program.twin m)) =
      (CallGraph.build a.program).isRecursive (a.component m) from
      h.isRecursive_twin hp hq hm hname]
  split
  · exact h.stabilize_inStep hp hq hm hname (fun _ hk => hk) _ hstep
  · exact (h.pass_inStep hp hq hm hname (fun _ hk => hk) hstep).2

end Overlap

/-! ### Whole runs -/

structure SameEnd (a b : Analysis) (w w' : Course) (m : Method) : Prop where
  summary : (b.finish w').2.summaries.get? (b.program.twin m).id =
    (a.finish w).2.summaries.get? m.id
  issues : ((b.finish w').2.matched.get? (b.program.twin m).id).map Matched.issues =
    ((a.finish w).2.matched.get? m.id).map Matched.issues

section Overlap

variable (h : a.Overlaps names b) (ha : a.Thorough w) (hb : b.Thorough w')

include h ha hb

/-- When the turn of a component begins, its own methods have their initial summaries and their
callees the final ones. -/
theorem Overlaps.inStep_of_turn (hm : m ∈ a.program.methods) (hname : names m.name = true)
    (hturn : a.Turn w (a.component m) p) (hturn' : b.Turn w' (b.component (b.program.twin m)) p')
    (hmatched : ∀ k ∈ a.component m, p.matched.get? k = none)
    (hmatched' : ∀ k ∈ b.component (b.program.twin m), p'.matched.get? k = none)
    (hlower : ∀ k ∈ a.program.methods, a.Near m k → k.id ∉ a.component m → a.SameEnd b w w' k) :
    a.InStep b m p p' := by
  have hp := ha.wellFormed
  have hq := hb.wellFormed
  have hinside (k : Method) (hk : k ∈ a.program.methods) (hnear : a.Near m k) :
      names k.name = true :=
    h.names_of_reaches hp hq hm hname hk (hnear.reaches hp hm)
  have hmem (k : Method) (hk : k ∈ a.program.methods) (hnear : a.Near m k) :=
    h.mem_component_twin hp hq hm hname hk (hinside k hk hnear)
  constructor
  · intro k hk hnear
    by_cases hown : k.id ∈ a.component m
    · rw [hturn.own k.id hown, hturn'.own _ ((hmem k hk hnear).2 hown), start_summary hp hk,
        start_summary hq (h.program.twin_mem hq hk (hinside k hk hnear))]
      rfl
    · obtain ⟨i, hi, hcalls⟩ := hnear.resolve_left hown
      obtain ⟨caller, hcaller, rfl⟩ := (CallGraph.mem_methods_build hp).1
        ((CallGraph.closed_build hp).mem_of_reaches
          ((CallGraph.mem_methods_build hp).2 ⟨m, hm, rfl⟩) ((mem_component hp hm).1 hi).1)
      have hname' := hinside caller hcaller (.inl hi)
      rw [hturn.callees caller.id hi k.id hcalls hown,
        hturn'.callees _ ((hmem caller hcaller (.inl hi)).2 hi) _
          (h.program.calls_twin hp hq hcaller hname' hk hcalls) fun hmem' =>
            hown ((hmem k hk hnear).1 hmem')]
      exact (hlower k hk hnear hown).summary
  · intro k hk hown
    rw [hmatched k.id hown, hmatched' _ ((hmem k hk (.inl hown)).2 hown)]

/-- Both runs end with the same about every method of the part. The induction is on how many methods
a method reaches, so that all callees outside its component come first. -/
theorem Overlaps.finish (hm : m ∈ a.program.methods) (hname : names m.name = true) :
    a.SameEnd b w w' m := by
  have hp := ha.wellFormed
  have hq := hb.wellFormed
  let g := CallGraph.build a.program
  have hg : g.Closed := CallGraph.closed_build hp
  induction hsize : (g.reach m.id).size using Nat.strongRecOn generalizing m with
  | _ size ih =>
    have hself : m.id ∈ a.component m := (mem_component hp hm).2 ⟨.refl, .refl⟩
    have htwin := h.program.twin_mem hq hm hname
    have hself' := (h.mem_component_twin hp hq hm hname hm hname).2 hself
    obtain ⟨p, before, after, hturn, hbefore, hafter, hout⟩ :=
      exists_turn_apart ha (component_mem_order hp ha.finds hm)
    obtain ⟨p', before', after', hturn', hbefore', hafter', hout'⟩ :=
      exists_turn_apart hb (component_mem_order hq hb.finds htwin)
    have hstep : a.InStep b m p p' := by
      refine h.inStep_of_turn ha hb hm hname hturn hturn'
        (fun k hk => hbefore.matched k (hout k hk).1)
        (fun k hk => hbefore'.matched k (hout' k hk).1) fun k hk hnear hown => ?_
      have hreaches := hnear.reaches hp hm
      have hless : (g.reach k.id).size < (g.reach m.id).size :=
        CallGraph.size_reach_lt hg hreaches fun hback =>
          hown ((mem_component hp hm).2 ⟨hreaches, hback⟩)
      exact ih (g.reach k.id).size (hsize ▸ hless) hk
        (h.names_of_reaches hp hq hm hname hk hreaches) rfl
    have hend := h.analyzeComponent_inStep hp hq hm hname hstep
    constructor
    · rw [hturn.after m.id hself, hturn'.after _ hself']
      exact hend.summaries m hm (.inl hself)
    · rw [hafter.matched m.id (hout m.id hself).2, hafter'.matched _ (hout' _ hself').2]
      exact hend.issues m hm hself

end Overlap

end Analysis

end TaintFlow
