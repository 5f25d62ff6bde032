import TaintFlow.Analysis
import TaintFlow.Proofs.CallOrder
import TaintFlow.Proofs.Lattice
import TaintFlow.Proofs.Trail
import TaintFlow.Proofs.Waiting

/-!
Results are stable. The verdict on a method is what an analysis of it comes to with given callees.
A method is settled when its verdict with the present summaries brings nothing new to its own
summary, and is what the analysis remembers about it (`Settled`). A visit settles the method unless
its summary grows and it calls itself; visits to other methods unsettle it only where the summary of
a callee grows. The last pass over a recursive component grows nothing, and what is analyzed later
is never called, so at the end of a run without conditions all methods are settled.
-/

namespace TaintFlow

namespace Analysis

variable (a : Analysis)

/-- What the analysis of one method comes to with given callees. -/
structure Verdict where
  /-- The inferred model, with the triggered sinks. -/
  model : Model
  matched : Matched
  /-- The halves that wait at the calls of the method. -/
  waiting : Stash
  deriving DecidableEq

def verdict (callees : String → Callee) (m : Method) : Verdict :=
  let r := MethodAnalysis.run ⟨m, a.heuristics, callees⟩
  let (matched, waiting) := a.matcher.check m r.observations ∅
  ⟨withTriggered r.model matched, matched, waiting⟩

/-- Triggered sinks are added to the sinks. -/
theorem withTriggered_eq (model : Model) (matched : Matched) : withTriggered model matched =
    { model with
      sinks := matched.triggered.foldl (fun m e => m.add e.1 e.2.1 e.2.2) model.sinks } := by
  unfold withTriggered
  induction matched.triggered generalizing model with
  | nil => rfl
  | cons e frames ih => exact ih _

theorem verdict_congr {f f' : String → Callee} {m : Method}
    (h : ∀ call ∈ m.calls, f call.2 = f' call.2) : a.verdict f m = a.verdict f' m := by
  unfold verdict
  rw [MethodAnalysis.run_congr h]

theorem sites (callees : String → Callee) (m : Method) :
    ∀ o ∈ (MethodAnalysis.run ⟨m, a.heuristics, callees⟩).observations, o.site.method = m.id :=
  fun _ ho => MethodAnalysis.method_of_mem_observations ho

/-- Only halves at the calls of the method wait. -/
theorem waiting_elsewhere (callees : String → Callee) (m : Method) :
    Stash.AgreeOn (fun _ site => site.method ≠ m.id) (a.verdict callees m).waiting ∅ :=
  a.matcher.check_elsewhere (a.sites callees m) ∅

/-! ### What a visit changes -/

variable {a} {m : Method} {p p' p'' : Progress}

theorem grow_grown {k : MethodId} {model : Model} :
    (p.grow k model).1 = !model.le (p.summaries.getD k ∅) := by
  unfold Progress.grow
  cases h : model.le (p.summaries.getD k ∅) <;> simp [h]

theorem grow_summaries {k : MethodId} {model : Model} :
    (p.grow k model).2.summaries =
      if model.le (p.summaries.getD k ∅) then p.summaries
      else p.summaries.insert k ((p.summaries.getD k ∅).join model) := by
  unfold Progress.grow
  cases h : model.le (p.summaries.getD k ∅) <;> simp [h]

theorem grow_matched {k : MethodId} {model : Model} : (p.grow k model).2.matched = p.matched := by
  unfold Progress.grow
  cases h : model.le (p.summaries.getD k ∅) <;> simp [h]

/-- What waits at other calls has no part in what a visit adds to the summary. -/
theorem withTriggered_eq_verdict :
    withTriggered (MethodAnalysis.run ⟨m, a.heuristics, a.callee p⟩).model
        (a.matcher.check m (MethodAnalysis.run ⟨m, a.heuristics, a.callee p⟩).observations
          p.stash).1 =
      (a.verdict (a.callee p) m).model :=
  congrArg (withTriggered _) (a.matcher.check_agree (a.sites (a.callee p) m) p.stash ∅).1

theorem visit_grown :
    (a.visit m p).1 = !(a.verdict (a.callee p) m).model.le (p.summaries.getD m.id ∅) := by
  rw [← grow_grown, ← withTriggered_eq_verdict]
  rfl

theorem visit_summaries :
    (a.visit m p).2.summaries =
      if (a.verdict (a.callee p) m).model.le (p.summaries.getD m.id ∅) then p.summaries
      else p.summaries.insert m.id
        ((p.summaries.getD m.id ∅).join (a.verdict (a.callee p) m).model) := by
  rw [← grow_summaries, ← withTriggered_eq_verdict]
  rfl

theorem visit_matched :
    (a.visit m p).2.matched = p.matched.insert m.id (a.verdict (a.callee p) m).matched := by
  have hmatched : _ = (a.verdict (a.callee p) m).matched :=
    (a.matcher.check_agree (a.sites (a.callee p) m) p.stash ∅).1
  rw [← hmatched]
  exact congrArg (OrdMap.insert · m.id _) grow_matched

theorem visit_stash_own :
    Stash.AgreeOn (fun _ site => site.method = m.id) (a.visit m p).2.stash
      (a.verdict (a.callee p) m).waiting :=
  (a.matcher.check_agree (a.sites (a.callee p) m) p.stash ∅).2

theorem visit_stash_elsewhere :
    Stash.AgreeOn (fun _ site => site.method ≠ m.id) (a.visit m p).2.stash p.stash :=
  a.matcher.check_elsewhere (a.sites (a.callee p) m) p.stash

/-- Nothing is different but the summaries, outcomes and waiting halves of some methods, and no
summary is lost. -/
structure SameOutside (ms : List MethodId) (p p' : Progress) : Prop where
  summaries : ∀ k ∉ ms, p'.summaries.get? k = p.summaries.get? k
  matched : ∀ k ∉ ms, p'.matched.get? k = p.matched.get? k
  stash : Stash.AgreeOn (fun _ site => site.method ∉ ms) p'.stash p.stash
  present : ∀ k, p.summaries.contains k = true → p'.summaries.contains k = true

namespace SameOutside

variable {ms ms' : List MethodId}

theorem refl (ms : List MethodId) (p : Progress) : SameOutside ms p p where
  summaries _ _ := rfl
  matched _ _ := rfl
  stash := .refl _ p.stash
  present _ h := h

theorem mono (h : SameOutside ms p p') (hms : ∀ k ∈ ms, k ∈ ms') : SameOutside ms' p p' where
  summaries k hk := h.summaries k fun hmem => hk (hms k hmem)
  matched k hk := h.matched k fun hmem => hk (hms k hmem)
  stash := h.stash.mono fun _ site hsite hmem => hsite (hms site.method hmem)
  present := h.present

theorem trans (h : SameOutside ms p p') (h' : SameOutside ms p' p'') : SameOutside ms p p'' where
  summaries k hk := (h'.summaries k hk).trans (h.summaries k hk)
  matched k hk := (h'.matched k hk).trans (h.matched k hk)
  stash := h'.stash.trans h.stash
  present k hk := h'.present k (h.present k hk)

end SameOutside

theorem visit_sameOutside (m : Method) (p : Progress) : SameOutside [m.id] p (a.visit m p).2 where
  summaries k hk := by
    rw [visit_summaries]
    split
    · rfl
    · rw [OrdMap.get?_insert, if_neg (by simpa using hk)]
  matched k hk := by rw [visit_matched, OrdMap.get?_insert, if_neg (by simpa using hk)]
  stash := visit_stash_elsewhere.mono fun _ site hsite => by simpa using hsite
  present k hk := by
    rw [visit_summaries]
    split
    · exact hk
    · rw [OrdMap.contains, OrdMap.get?_insert]
      split
      · rfl
      · exact hk

theorem pass_sameOutside (ms : List Method) (p : Progress) :
    SameOutside (ms.map Method.id) p (a.pass ms p).2 := by
  induction ms generalizing p with
  | nil => exact .refl _ p
  | cons m ms ih =>
    have hfirst : SameOutside ((m :: ms).map Method.id) p (a.visit m p).2 :=
      (a.visit_sameOutside m p).mono (by simp)
    have hrest : SameOutside ((m :: ms).map Method.id) _ (a.pass ms (a.visit m p).2).2 :=
      (ih (a.visit m p).2).mono (by simp +contextual)
    exact hfirst.trans hrest

theorem stabilize_sameOutside (ms : List Method) (further : Nat) (p : Progress) :
    SameOutside (ms.map Method.id) p (a.stabilize ms further p).2 := by
  have hpass := a.pass_sameOutside ms p
  induction further generalizing p with
  | zero => exact hpass
  | succ further ih =>
    rw [stabilize]
    split
    · next p' heq => exact (heq ▸ hpass).trans (ih p' (a.pass_sameOutside ms p'))
    · next p' heq => exact heq ▸ hpass

def analyzedIds (a : Analysis) (c : Component) : List MethodId := (a.bodies c).map Method.id

theorem analyzeComponent_snd (a : Analysis) (g : CallGraph) (c : Component) (p : Progress) :
    (a.analyzeComponent g c p).2 =
      if g.isRecursive c then (a.stabilize (a.bodies c) (a.heuristics.maxIterations - 1) p).2
      else (a.pass (a.bodies c) p).2 := by
  unfold analyzeComponent
  simp only
  split
  · rcases a.stabilize (a.bodies c) (a.heuristics.maxIterations - 1) p with ⟨_ | _, p'⟩ <;> rfl
  · rfl

theorem analyzeComponent_sameOutside (g : CallGraph) (c : Component) (p : Progress) :
    SameOutside (a.analyzedIds c) p (a.analyzeComponent g c p).2 := by
  rw [analyzeComponent_snd]
  split
  · exact a.stabilize_sameOutside (a.bodies c) (a.heuristics.maxIterations - 1) p
  · exact a.pass_sameOutside (a.bodies c) p

theorem analyzeAll_sameOutside (g : CallGraph) (cs : List Component) (p : Progress) :
    SameOutside (cs.flatMap a.analyzedIds) p (a.analyzeAll g cs p).2 := by
  induction cs generalizing p with
  | nil => exact .refl _ p
  | cons c cs ih =>
    have hfirst : SameOutside ((c :: cs).flatMap a.analyzedIds) p (a.analyzeComponent g c p).2 :=
      (a.analyzeComponent_sameOutside g c p).mono (by simp +contextual)
    have hrest : SameOutside ((c :: cs).flatMap a.analyzedIds) _
        (a.analyzeAll g cs (a.analyzeComponent g c p).2).2 :=
      (ih (a.analyzeComponent g c p).2).mono (by simp +contextual)
    exact hfirst.trans hrest

/-! ### Settled methods -/

/-- The verdict with the present summaries brings nothing new, and is what is remembered. -/
structure Settled (a : Analysis) (p : Progress) (m : Method) : Prop where
  summary : (a.verdict (a.callee p) m).model.le (p.summaries.getD m.id ∅) = true
  matched : p.matched.get? m.id = some (a.verdict (a.callee p) m).matched
  waiting : Stash.AgreeOn (fun _ site => site.method = m.id) p.stash
    (a.verdict (a.callee p) m).waiting

/-- The names in the body of a method stand for methods outside some others. -/
def CallsOutside (a : Analysis) (ms : List MethodId) (m : Method) : Prop :=
  ∀ call ∈ m.calls, ∀ callee, a.program.lookup call.2 = some callee → callee.id ∉ ms

theorem callee_of_lookup {name : String} {m : Method} (h : a.program.lookup name = some m) :
    a.callee p name = ((p.summaries.get? m.id).map Callee.modeled).getD .obscure := by
  unfold callee
  rw [h, Option.bind_some]
  cases p.summaries.get? m.id <;> rfl

theorem callee_congr {name : String}
    (h : ∀ callee, a.program.lookup name = some callee →
      p'.summaries.get? callee.id = p.summaries.get? callee.id) :
    a.callee p' name = a.callee p name := by
  cases hlookup : a.program.lookup name with
  | none => simp only [callee, hlookup, Option.bind_none]
  | some callee => rw [callee_of_lookup hlookup, callee_of_lookup hlookup, h callee hlookup]

theorem verdict_eq {ms : List MethodId} (h : SameOutside ms p p') (hm : a.CallsOutside ms m) :
    a.verdict (a.callee p') m = a.verdict (a.callee p) m :=
  a.verdict_congr fun call hcall => callee_congr fun callee hcallee =>
    h.summaries callee.id (hm call hcall callee hcallee)

theorem verdict_eq_of_summaries_eq (h : p'.summaries = p.summaries) :
    a.verdict (a.callee p') m = a.verdict (a.callee p) m :=
  a.verdict_congr fun _ _ => callee_congr fun _ _ => by rw [h]

/-- A method stays settled while others are analyzed, if the verdict on it stays. -/
theorem Settled.of_sameOutside {ms : List MethodId} (hm : Settled a p m)
    (h : SameOutside ms p p') (hown : m.id ∉ ms)
    (hverdict : a.verdict (a.callee p') m = a.verdict (a.callee p) m) : Settled a p' m where
  summary := by
    rw [hverdict, OrdMap.getD, h.summaries m.id hown]
    exact hm.summary
  matched := by
    rw [hverdict, h.matched m.id hown]
    exact hm.matched
  waiting := by
    rw [hverdict]
    exact (h.stash.mono fun _ site (hsite : site.method = m.id) => hsite ▸ hown).trans hm.waiting

/-- A visit settles a method if it leaves the verdict on the method as it was. -/
theorem visit_settled
    (h : a.verdict (a.callee (a.visit m p).2) m = a.verdict (a.callee p) m) :
    Settled a (a.visit m p).2 m where
  summary := by
    rw [h, visit_summaries]
    split
    · next hle => exact hle
    · rw [OrdMap.getD, OrdMap.get?_insert, if_pos rfl]
      exact Model.le_join_right _ _
  matched := by rw [h, visit_matched, OrdMap.get?_insert, if_pos rfl]
  waiting := by
    rw [h]
    exact visit_stash_own

/-- A pass that grows nothing changes no summary. -/
theorem pass_summaries {ms : List Method} (h : (a.pass ms p).1 = false) :
    (a.pass ms p).2.summaries = p.summaries := by
  induction ms generalizing p with
  | nil => rfl
  | cons m ms ih =>
    obtain ⟨hfirst, hrest⟩ : (a.visit m p).1 = false ∧ (a.pass ms (a.visit m p).2).1 = false :=
      Bool.or_eq_false_iff.1 h
    rw [visit_grown, Bool.not_eq_false'] at hfirst
    show (a.pass ms (a.visit m p).2).2.summaries = _
    rw [ih hrest, visit_summaries, if_pos hfirst]

/-- A pass that grows nothing settles all its methods. -/
theorem pass_settled {ms : List Method} (hnodup : (ms.map Method.id).Nodup)
    (h : (a.pass ms p).1 = false) : ∀ m ∈ ms, Settled a (a.pass ms p).2 m := by
  induction ms generalizing p with
  | nil => exact fun m hm => by cases hm
  | cons m ms ih =>
    obtain ⟨hfirst, hrest⟩ : (a.visit m p).1 = false ∧ (a.pass ms (a.visit m p).2).1 = false :=
      Bool.or_eq_false_iff.1 h
    obtain ⟨hnot, hnodup⟩ := List.nodup_cons.1 hnodup
    have hvisit : (a.visit m p).2.summaries = p.summaries := by
      rw [visit_grown, Bool.not_eq_false'] at hfirst
      rw [visit_summaries, if_pos hfirst]
    intro k hk
    rcases List.mem_cons.1 hk with rfl | hk
    · exact (visit_settled (verdict_eq_of_summaries_eq hvisit)).of_sameOutside
        (a.pass_sameOutside ms _) hnot (verdict_eq_of_summaries_eq (pass_summaries hrest))
    · exact ih hnodup hrest k hk

/-- Passes that come to an end before they are cut off settle all methods: the last one grew
nothing. -/
theorem stabilize_settled {ms : List Method} (hnodup : (ms.map Method.id).Nodup) (further : Nat)
    (h : (a.stabilize ms further p).1 = false) :
    ∀ m ∈ ms, Settled a (a.stabilize ms further p).2 m := by
  induction further generalizing p with
  | zero => exact pass_settled hnodup h
  | succ further ih =>
    rw [stabilize] at h ⊢
    rcases hpass : a.pass ms p with ⟨_ | _, p'⟩
    · have hsettled := pass_settled hnodup (congrArg Prod.fst hpass)
      rw [hpass] at hsettled
      exact hsettled
    · rw [hpass] at h
      exact ih h

/-! ### Components -/

theorem mem_bodies {c : Component} (hp : a.program.WellFormed) :
    m ∈ a.bodies c ↔ m ∈ a.program.methods ∧ m.id ∈ c ∧ m.hasBody = true := by
  rw [bodies, List.mem_filter, List.mem_filterMap]
  constructor
  · rintro ⟨⟨k, hk, hm⟩, hbody⟩
    exact ⟨Program.mem_of_method? hm, hp.id_of_method? hm ▸ hk, hbody⟩
  · rintro ⟨hm, hk, hbody⟩
    exact ⟨⟨m.id, hk, hp.method?_id hm⟩, hbody⟩

theorem analyzedIds_subset {c : Component} (hp : a.program.WellFormed) {k : MethodId}
    (h : k ∈ a.analyzedIds c) : k ∈ c := by
  obtain ⟨m, hm, rfl⟩ := List.mem_map.1 h
  exact ((mem_bodies hp).1 hm).2.1

theorem nodup_analyzedIds {c : Component} (hp : a.program.WellFormed) (hc : c.Nodup) :
    (a.analyzedIds c).Nodup := by
  have hids : (c.filterMap a.program.method?).map Method.id =
      c.filter fun k => (a.program.method? k).isSome := by
    induction c with
    | nil => rfl
    | cons k c ih =>
      have hrest := ih (List.nodup_cons.1 hc).2
      cases hk : a.program.method? k with
      | none => simpa [hk] using hrest
      | some m => simpa [hk, hp.id_of_method? hk] using hrest
  have hsub : List.Sublist (a.analyzedIds c) ((c.filterMap a.program.method?).map Method.id) :=
    List.filter_sublist.map Method.id
  exact hsub.nodup (hids ▸ hc.filter _)

theorem bodies_singleton (hp : a.program.WellFormed) (hm : m ∈ a.program.methods) :
    a.bodies [m.id] = if m.hasBody then [m] else [] := by
  rw [bodies, List.filterMap_cons, hp.method?_id hm, List.filterMap_nil, List.filter_cons,
    List.filter_nil]

theorem callsOutside {ms : List MethodId} (hp : a.program.WellFormed)
    (hm : m ∈ a.program.methods)
    (h : ∀ k, (CallGraph.build a.program).Calls m.id k → k ∉ ms) : a.CallsOutside ms m :=
  fun _ hcall callee hcallee => h callee.id <|
    CallGraph.calls_of_lookup hp hm hcall hcallee

/-- A component that raises no condition is settled when it is analyzed. -/
theorem analyzeComponent_settled (hp : a.program.WellFormed) {c : Component} (hc : c.Nodup)
    (h : (a.analyzeComponent (CallGraph.build a.program) c p).1 = []) :
    ∀ m ∈ a.bodies c,
      Settled a (a.analyzeComponent (CallGraph.build a.program) c p).2 m := by
  unfold analyzeComponent at h ⊢
  simp only at h ⊢
  have hnodup := nodup_analyzedIds hp hc
  split at h
  · next hrecursive =>
    rw [if_pos hrecursive]
    rcases hstabilize : a.stabilize (a.bodies c) (a.heuristics.maxIterations - 1) p with ⟨_ | _, p'⟩
    · have hsettled := stabilize_settled hnodup _ (congrArg Prod.fst hstabilize)
      rw [hstabilize] at hsettled
      exact hsettled
    · rw [hstabilize] at h
      cases h
  · next hrecursive =>
    rw [if_neg hrecursive]
    intro m hm
    obtain ⟨hmethod, hid, hbody⟩ := (mem_bodies hp).1 hm
    obtain ⟨rfl, hself⟩ :=
      CallGraph.eq_singleton_of_not_isRecursive hid (Bool.not_eq_true _ ▸ hrecursive)
    rw [bodies_singleton hp hmethod, if_pos hbody]
    refine visit_settled (verdict_eq (a.visit_sameOutside m p) (callsOutside hp hmethod ?_))
    intro k hk hmem
    rw [List.mem_singleton.1 hmem] at hk
    exact hself hk

/-- The methods of components that come callees first are all settled at the end: what is analyzed
after a component is not called by it. -/
theorem analyzeAll_settled (hp : a.program.WellFormed) {earlier : List MethodId}
    {cs : List Component} (hnodup : (earlier ++ cs.flatten).Nodup)
    (hfirst : (CallGraph.build a.program).calleesFirst earlier cs = true)
    (h : (a.analyzeAll (CallGraph.build a.program) cs p).1 = []) :
    ∀ c ∈ cs, ∀ m ∈ a.bodies c,
      Settled a (a.analyzeAll (CallGraph.build a.program) cs p).2 m := by
  induction cs generalizing earlier p with
  | nil => exact fun c hc => by cases hc
  | cons c cs ih =>
    obtain ⟨hcalls, hrest⟩ := CallGraph.calleesFirst_cons.1 hfirst
    obtain ⟨hcondition, hconditions⟩ := List.append_eq_nil_iff.1
      (show (a.analyzeComponent (CallGraph.build a.program) c p).1 ++ _ = [] from h)
    rw [List.flatten_cons, ← List.append_assoc] at hnodup
    obtain ⟨hleft, -, hdisjoint⟩ := List.nodup_append.1 hnodup
    intro c' hc'
    rcases List.mem_cons.1 hc' with rfl | hc'
    · intro m hm
      obtain ⟨hmethod, hid, -⟩ := (mem_bodies hp).1 hm
      have hlater : ∀ k ∈ earlier ++ c', k ∉ cs.flatMap a.analyzedIds := by
        intro k hk hmem
        obtain ⟨c, hc, hkc⟩ := List.mem_flatMap.1 hmem
        exact hdisjoint k hk k (List.mem_flatten.2 ⟨c, hc, analyzedIds_subset hp hkc⟩) rfl
      have hsame := a.analyzeAll_sameOutside (CallGraph.build a.program) cs
        (a.analyzeComponent (CallGraph.build a.program) c' p).2
      refine (analyzeComponent_settled hp (List.nodup_append.1 hleft).2.1 hcondition m
        hm).of_sameOutside hsame (hlater m.id (List.mem_append.2 (.inr hid)))
        (verdict_eq hsame (callsOutside hp hmethod fun k hk => hlater k ?_))
      exact List.mem_append.2 (hcalls m.id hid k hk)
    · exact ih hnodup hrest hconditions c' hc'

end Analysis

end TaintFlow
