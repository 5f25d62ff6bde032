import TaintFlow.Proofs.Declared
import TaintFlow.Proofs.OrderIndependence
import TaintFlow.Proofs.PrunedPrograms
import TaintFlow.Proofs.SharedAnalysis

/-!
The analysis is modular. What a run finds at the calls of a method for rules that ask for no effect
is what the last visit to the method found (`plainIssues_eq`): issues of other methods have other
keys, and so have those that wait for an effect. So methods that one method does not reach may be
left out of the document, and the method has the same model and the same issues: `run_pruned`.
-/

namespace TaintFlow

namespace Analysis

variable {names : String → Bool} {a b : Analysis} {w w' : Course} {m : Method}

def isPlain (a : Analysis) (name : String) (key : Issue.Key) : Bool :=
  key.2.2.2.1 == name && (a.rules.get? key.1).any (·.effectSources.isNone)

/-- The issues at the calls of the method with a name, for rules that ask for no effect. -/
def plainIssues (a : Analysis) (w : Course) (name : String) : List Issue :=
  (a.runAlong w).issues.filter fun i => a.isPlain name i.key

/-! ### The issues of one method -/

/-- What is remembered about a method is a verdict on it. -/
theorem exists_verdict_of_matched (hp : a.program.WellFormed) {k : MethodId} {v : Matched}
    (hv : (a.finish w).2.matched.get? k = some v) :
    ∃ n ∈ a.program.methods, n.id = k ∧ ∃ f, v = (a.verdict f n).matched := by
  have hkeeps := run_keeps (a := a) (w := w)
    (R := fun p => ∀ k v, p.matched.get? k = some v →
      ∃ n ∈ a.program.methods, n.id = k ∧ ∃ f, v = (a.verdict f n).matched)
    (fun visit hvisit hbefore k v hv => ?_) (fun _ _ _ h => h) (fun _ _ h => by cases h)
  · exact hkeeps.2.2 k v hv
  · rw [visit_matched, OrdMap.get?_insert] at hv
    split at hv
    · next hk =>
      exact ⟨visit.1, (mem_visits hp hvisit).1, hk.symm, _, (Option.some.inj hv).symm⟩
    · exact hbefore k v hv

section WellFormed

variable (hp : a.program.WellFormed) (hr : a.rules.WellFormed)

include hp hr

/-- Of the issues that are remembered, those of one method are plain ones of it. -/
theorem filter_issues (hm : m ∈ a.program.methods) :
    ((a.finish w).2.matched.values.flatMap Matched.issues).filter (fun i => a.isPlain m.name i.key) =
      (((a.finish w).2.matched.get? m.id).map Matched.issues).getD [] := by
  let entries := (a.finish w).2.matched.entries
  have hentry : ∀ e ∈ entries, e.2.issues.filter (fun i => a.isPlain m.name i.key) =
      if e.1 = m.id then e.2.issues else [] := by
    intro e he
    obtain ⟨n, hn, hid, f, hverdict⟩ := exists_verdict_of_matched hp (OrdMap.get?_eq_some_iff.2 he)
    have hplain : ∀ i ∈ e.2.issues, a.isPlain m.name i.key = (n.name == m.name) := by
      intro i hi
      obtain ⟨o, hit, hrule, hnone, rfl⟩ := of_mem_issues hr (hverdict ▸ hi)
      have hget : a.rules.get? (a.matcher.issue n o hit).key.1 = some hit.rule :=
        hr.get?_code hrule
      rw [isPlain, hget, Option.any_some, hnone]
      exact Bool.and_true _
    rw [List.filter_congr hplain]
    split
    · next heq =>
      rw [hp.eq_of_id hn hm (hid.trans heq)]
      simp
    · next hne =>
      have hname : (n.name == m.name) = false := beq_eq_false_iff_ne.2 fun hname =>
        hne (by rw [← hid, hp.eq_of_name hn hm hname])
      simp [hname]
  calc (entries.map Prod.snd |>.flatMap Matched.issues).filter _
    _ = entries.flatMap fun e => if e.1 = m.id then e.2.issues else [] := by
      rw [List.flatMap_map, List.filter_flatMap]
      exact List.flatMap_congr hentry
    _ = (entries.filter fun e => e.1 = m.id).flatMap fun e => e.2.issues :=
      (flatMap_filter_eq (fun e _ he => (if_pos (of_decide_eq_true he)).symm)
        fun e _ he => if_neg (of_decide_eq_false he)).symm
    _ = _ := by
      rw [OrdMap.filter_key (a.finish w).2.matched.ascending]
      show _ = ((OrdMap.lookup m.id entries).map Matched.issues).getD []
      cases OrdMap.lookup m.id entries <;> simp

/-- No issue that waits for an effect is plain. -/
theorem filter_deferred (name : String) :
    ((a.finish w).2.matched.values.flatMap Matched.deferred).filter
      (fun d => a.isPlain name d.issue.key) = [] := by
  refine List.filter_eq_nil_iff.2 fun d hd hplain => ?_
  obtain ⟨v, hv, hd⟩ := List.mem_flatMap.1 hd
  obtain ⟨k, hk⟩ := OrdMap.mem_values.1 hv
  obtain ⟨n, -, -, f, rfl⟩ := exists_verdict_of_matched hp hk
  obtain ⟨o, hit, hrule, heffects, -, hissue⟩ := of_mem_deferred hr hd
  have hget : a.rules.get? d.issue.key.1 = some hit.rule := by
    rw [hissue]
    exact hr.get?_code hrule
  rw [isPlain, hget, Option.any_some, heffects] at hplain
  simp at hplain

/-- The plain issues of a method are those of the last visit to it, merged by their keys. -/
theorem plainIssues_eq (hm : m ∈ a.program.methods) :
    a.plainIssues w m.name =
      ((∅ : Issues).addAll
        ((((a.finish w).2.matched.get? m.id).map Matched.issues).getD [])).values := by
  let g := CallGraph.build a.program
  let effects := EffectIndex.build a.program g a.kinds
  let direct := (a.finish w).2.matched.values.flatMap Matched.issues
  let deferred := (a.finish w).2.matched.values.flatMap Matched.deferred
  have hkeyed : OrdMap.Keyed Issue.key (a.issues g (a.finish w).2) :=
    keyed_issues _ (keyed_issues _ OrdMap.keyed_empty)
  have hgate : (effects.gate deferred).filter (fun i => a.isPlain m.name i.key) = [] := by
    rw [effects.filter_gate, filter_deferred hp hr m.name]
    rfl
  rw [plainIssues, issues_runAlong]
  refine (hkeyed.values_filter (a.isPlain m.name)).symm.trans (congrArg OrdMap.values ?_)
  calc (((∅ : Issues).addAll direct).addAll (effects.gate deferred)).filter
        fun k _ => a.isPlain m.name k
    _ = ((∅ : Issues).addAll direct).filter fun k _ => a.isPlain m.name k := by
      rw [Issues.filter_addAll, hgate]
      rfl
    _ = _ := by
      rw [Issues.filter_addAll, filter_issues hp hr hm]
      rfl

end WellFormed

/-! ### Programs without some methods -/

/-- Both runs end with the same model and the same plain issues for a method of the part. -/
theorem Overlaps.run_eq (h : a.Overlaps names b) (ha : a.Thorough w) (hb : b.Thorough w')
    (hr : a.rules.WellFormed) (hm : m ∈ a.program.methods) (hname : names m.name = true) :
    (b.runAlong w').models.get? m.name = (a.runAlong w).models.get? m.name ∧
      b.plainIssues w' m.name = a.plainIssues w m.name := by
  have htwin := h.program.twin_mem hb.wellFormed hm hname
  obtain ⟨hsummary, hissues⟩ := h.finish ha hb hm hname
  constructor
  · rw [run_models ha.wellFormed hm, ← hsummary]
    exact run_models hb.wellFormed htwin
  · rw [plainIssues_eq ha.wellFormed hr hm, ← hissues]
    exact plainIssues_eq hb.wellFormed (h.rules ▸ hr) htwin

/-- Some methods may be left out of a document whose kinds are known. What is left is accepted, and a
method that reaches none of those left out has the same model, and at its calls the same issues for
rules that ask for no effect, in whatever order the components of either program are found. -/
theorem run_pruned {d : ProgramDocument} {entries : List MethodModel} {t : KindTable}
    (hload : (Program.load d entries).runOn t = (.ok a.program, a.kinds))
    (hr : a.rules.WellFormed) (htime : a.heuristics.timeoutSeconds = none)
    (keep : String → Bool) :
    ∃ q : Program,
      (Program.load (d.filter (keep ·.name)) entries).runOn a.kinds = (.ok q, a.kinds) ∧
      ∀ w w' : Course, w.Finds a.program → w'.Finds q →
        ∀ m ∈ a.program.methods,
          (∀ k ∈ a.program.methods, (CallGraph.build a.program).Reaches m.id k.id →
            keep k.name = true) →
          let b : Analysis := { a with program := q }
          (b.runAlong w').models.get? m.name = (a.runAlong w).models.get? m.name ∧
            b.plainIssues w' m.name = a.plainIssues w m.name := by
  obtain ⟨-, q, hpruned, hknown⟩ := Program.rereads_load keep d entries t a.program a.kinds hload
  have hload' := hknown a.kinds (.refl a.kinds)
  have hp : a.program.WellFormed := Program.yields_load d entries t a.program a.kinds hload
  have hq : q.WellFormed := Program.yields_load _ entries a.kinds q a.kinds hload'
  refine ⟨q, hload', fun w w' hw hw' m hm hkeep => ?_⟩
  have hnames : ∀ name, a.program.reachedNames m name = true → keep name = true := by
    intro name hname
    obtain ⟨k, hk, hreaches⟩ := (Program.reachedNames_iff hp).1 hname
    obtain ⟨hmem, rfl⟩ := Program.mem_of_lookup hk
    exact hkeep k hmem hreaches
  have hoverlaps : a.Overlaps (a.program.reachedNames m) { a with program := q } :=
    ⟨hpruned.shares hp hnames, hpruned.part_of_imp hnames, rfl, rfl, rfl⟩
  exact hoverlaps.run_eq (thorough_of_none hp hw htime) (thorough_of_none hq hw' htime) hr hm
    ((Program.reachedNames_iff hp).2 ⟨m, hp.lookup_name hm, .refl⟩)

/-- A document in which another method calls `main`, from before it. -/
def startingDocument : ProgramDocument :=
  ⟨"start", [], some (.run ⟨(), none⟩ (.call "main" [] none) .done), none⟩ :: echoDocument

def starting : Analysis :=
  match (Program.load startingDocument []).runOn ∅ with
  | (.ok program, kinds) => { echo with program, kinds }
  | (.error _, kinds) => { echo with program := ∅, kinds }

theorem starting_loaded :
    (Program.load startingDocument []).runOn ∅ = (.ok starting.program, starting.kinds) := by
  rfl

theorem run_pruned_starting :
    (starting.plainIssues starting.swift "main").length = 1 ∧
      ∃ q : Program,
        (Program.load (startingDocument.filter (·.name != "start")) []).runOn starting.kinds =
          (.ok q, starting.kinds) ∧
        ∀ w : Course, w.Finds q →
          let b : Analysis := { starting with program := q }
          (b.runAlong w).models.get? "main" =
              (starting.runAlong starting.swift).models.get? "main" ∧
            b.plainIssues w "main" = starting.plainIssues starting.swift "main" := by
  obtain ⟨q, hq, hsame⟩ := run_pruned starting_loaded (RuleSet.wellFormed_empty.push rfl) rfl
    (· != "start")
  have hp := Program.yields_load _ _ _ _ _ starting_loaded
  refine ⟨by decide, q, hq, fun w hw => ?_⟩
  obtain ⟨m, hm, hid, hname⟩ : ∃ m ∈ starting.program.methods, m.id = ⟨4⟩ ∧ m.name = "main" := by
    decide
  have hkept : ∀ k ∈ starting.program.methods,
      ((CallGraph.build starting.program).reach ⟨4⟩).contains k.id = true → k.name != "start" := by
    decide
  rw [← hname]
  refine hsame starting.swift w (Course.finds_swift hp) hw m hm fun k hk hreaches => hkept k hk ?_
  exact hid ▸ (CallGraph.mem_reach (CallGraph.closed_build hp)).2 hreaches

end Analysis

end TaintFlow
