import Mathlib.Data.List.Infix
import TaintFlow.Proofs.StableResult

/-!
The visits of a run, each to a method with what is known when it begins. A level is the sequence of
its visits (`Leads`), after which its late methods are skipped, so that what visits and skips keep
holds at all moments of a run (`run_keeps`). A run that skips nothing is the sequence of its visits.
A visit joins its verdict into the summary of the method, so summaries only grow then. Every component
has its turn: at its beginning the summaries of its own methods are the initial ones and those of its
callees the final ones (`Turn`).
-/

namespace TaintFlow

namespace Analysis

/-! ### Visits -/

section Lists

variable (a : Analysis)

def passVisits : List Method → Progress → List (Method × Progress)
  | [], _ => []
  | m :: ms, p => (m, p) :: passVisits ms (a.visit m p).2

def stabilizeVisits (ms : List Method) : Nat → Progress → List (Method × Progress)
  | 0, p => a.passVisits ms p
  | further + 1, p =>
    a.passVisits ms p ++
      match a.pass ms p with
      | (true, p) => stabilizeVisits ms further p
      | (false, _) => []

def componentVisits (g : CallGraph) (c : Component) (p : Progress) : List (Method × Progress) :=
  if g.isRecursive c then a.stabilizeVisits (a.bodies c) (a.heuristics.maxIterations - 1) p
  else a.passVisits (a.bodies c) p

def allVisits (g : CallGraph) : List Component → Progress → List (Method × Progress)
  | [], _ => []
  | c :: cs, p => a.componentVisits g c p ++ allVisits g cs (a.analyzeComponent g c p).2

def levelVisits (g : CallGraph) (w : Course) :
    List (List Component) → Progress → List (Method × Progress)
  | [], _ => []
  | level :: levels, p =>
    a.allVisits g (a.inTime w level) p ++
      levelVisits g w levels (skipAll (a.missed w level) (a.analyzeAll g (a.inTime w level) p).2)

/-- What is known during some levels: after every visit, and as one method after another is
skipped. -/
def levelMoments (g : CallGraph) (w : Course) : List (List Component) → Progress → List Progress
  | [], _ => []
  | level :: levels, p =>
    let analyzed := (a.analyzeAll g (a.inTime w level) p).2
    (a.allVisits g (a.inTime w level) p).map (fun v => (a.visit v.1 v.2).2) ++
      ((a.missed w level).inits.map (skipAll · analyzed) ++
        levelMoments g w levels (skipAll (a.missed w level) analyzed))

def visits (w : Course) : List (Method × Progress) :=
  let g := CallGraph.build a.program
  a.levelVisits g w (g.levels w.components) a.start

def moments (w : Course) : List Progress :=
  let g := CallGraph.build a.program
  a.start :: a.levelMoments g w (g.levels w.components) a.start

end Lists

/-- Some visits, one after another, lead from what is known first to what is known last. -/
inductive Leads (a : Analysis) : Progress → List (Method × Progress) → Progress → Prop where
  | nil (p : Progress) : Leads a p [] p
  | cons {m : Method} {p p' : Progress} {vs : List (Method × Progress)}
    (h : Leads a (a.visit m p).2 vs p') : Leads a p ((m, p) :: vs) p'

variable {a : Analysis} {w : Course} {m : Method} {p p' p'' : Progress}
  {vs vs' : List (Method × Progress)}

theorem Leads.append (h : a.Leads p vs p') (h' : a.Leads p' vs' p'') :
    a.Leads p (vs ++ vs') p'' := by
  induction h with
  | nil p => exact h'
  | cons _ ih => exact .cons (ih h')

theorem pass_leads (ms : List Method) (p : Progress) :
    a.Leads p (a.passVisits ms p) (a.pass ms p).2 := by
  induction ms generalizing p with
  | nil => exact .nil p
  | cons m ms ih => exact .cons (ih (a.visit m p).2)

theorem stabilize_leads (ms : List Method) (further : Nat) (p : Progress) :
    a.Leads p (a.stabilizeVisits ms further p) (a.stabilize ms further p).2 := by
  have hleads := pass_leads (a := a) ms p
  induction further generalizing p with
  | zero => exact hleads
  | succ further ih =>
    rw [stabilizeVisits, stabilize]
    rcases hpass : a.pass ms p with ⟨_ | _, p'⟩
    · rw [hpass] at hleads
      simpa using hleads
    · rw [hpass] at hleads
      exact hleads.append (ih p' (pass_leads ms p'))

theorem analyzeComponent_leads (g : CallGraph) (c : Component) (p : Progress) :
    a.Leads p (a.componentVisits g c p) (a.analyzeComponent g c p).2 := by
  rw [componentVisits, analyzeComponent_snd]
  split
  · exact stabilize_leads (a.bodies c) _ p
  · exact pass_leads (a.bodies c) p

theorem analyzeAll_leads (g : CallGraph) (cs : List Component) (p : Progress) :
    a.Leads p (a.allVisits g cs p) (a.analyzeAll g cs p).2 := by
  induction cs generalizing p with
  | nil => exact .nil p
  | cons c cs ih => exact (analyzeComponent_leads g c p).append (ih _)

/-- What every visit keeps holds at the end. -/
theorem Leads.keeps {R : Progress → Prop} (h : a.Leads p vs p')
    (hvisit : ∀ v ∈ vs, R v.2 → R (a.visit v.1 v.2).2) (hp : R p) : R p' := by
  induction h with
  | nil p => exact hp
  | @cons m p p' vs _ ih =>
    exact ih (fun v hv => hvisit v (List.mem_cons_of_mem (m, p) hv))
      (hvisit (m, p) List.mem_cons_self hp)

/-- What every visit keeps holds at the beginning of every visit. -/
theorem Leads.before {R : Progress → Prop} (h : a.Leads p vs p')
    (hvisit : ∀ v ∈ vs, R v.2 → R (a.visit v.1 v.2).2) (hp : R p) : ∀ v ∈ vs, R v.2 := by
  induction h with
  | nil p => exact nofun
  | @cons m p p' vs _ ih =>
    intro v hv
    rcases List.mem_cons.1 hv with rfl | hv
    · exact hp
    · exact ih (fun v hv => hvisit v (List.mem_cons_of_mem (m, p) hv))
        (hvisit (m, p) List.mem_cons_self hp) v hv

/-- What happens after a visit. -/
theorem Leads.after (h : a.Leads p vs p') {v : Method × Progress} (hv : v ∈ vs) :
    ∃ vs', a.Leads (a.visit v.1 v.2).2 vs' p' := by
  induction h with
  | nil p => cases hv
  | cons h ih =>
    rcases List.mem_cons.1 hv with rfl | hv
    · exact ⟨_, h⟩
    · exact ih hv

/-! ### Whole runs -/

theorem skipAll_keeps {R : Progress → Prop} {ms : List Method}
    (hskip : ∀ m ∈ ms, ∀ q, R q → R (skip m q)) (hp : R p) : R (skipAll ms p) :=
  List.foldlRecOn ms _ hp fun q hq m hm => hskip m hm q hq

/-- What every visit and every skip keeps holds all along, and at the end. -/
theorem analyzeLevels_keeps {R : Progress → Prop} (g : CallGraph) (levels : List (List Component))
    (hvisit : ∀ v ∈ a.levelVisits g w levels p, R v.2 → R (a.visit v.1 v.2).2)
    (hskip : ∀ m ∈ levels.flatMap (a.missed w), ∀ q, R q → R (skip m q)) (hp : R p) :
    (∀ v ∈ a.levelVisits g w levels p, R v.2) ∧ (∀ q ∈ a.levelMoments g w levels p, R q) ∧
      R (a.analyzeLevels g w levels p).2 := by
  induction levels generalizing p with
  | nil => exact ⟨nofun, nofun, hp⟩
  | cons level levels ih =>
    let analyzed := (a.analyzeAll g (a.inTime w level) p).2
    have hleads : a.Leads p (a.allVisits g (a.inTime w level) p) analyzed := analyzeAll_leads g _ p
    have hown (v) (hv : v ∈ a.allVisits g (a.inTime w level) p) :=
      hvisit v (List.mem_append_left _ hv)
    have hmissed (m) (hm : m ∈ a.missed w level) :=
      hskip m (List.mem_append_left (levels.flatMap (a.missed w)) hm)
    have hbefore := hleads.before hown hp
    have hanalyzed : R analyzed := hleads.keeps hown hp
    obtain ⟨hvisits, hmoments, hend⟩ := ih (p := skipAll (a.missed w level) analyzed)
      (fun v hv => hvisit v (List.mem_append_right _ hv))
      (fun m hm => hskip m (List.mem_append_right _ hm)) (skipAll_keeps hmissed hanalyzed)
    refine ⟨fun v hv => (List.mem_append.1 hv).elim (hbefore v) (hvisits v), fun q hq => ?_, hend⟩
    rcases List.mem_append.1 hq with hq | hq
    · obtain ⟨v, hv, rfl⟩ := List.mem_map.1 hq
      exact hown v hv (hbefore v hv)
    · rcases List.mem_append.1 hq with hq | hq
      · obtain ⟨ms, hms, rfl⟩ := List.mem_map.1 hq
        exact skipAll_keeps (fun m hm => hmissed m (((List.mem_inits _ _).1 hms).subset hm))
          hanalyzed
      · exact hmoments q hq

theorem run_keeps {R : Progress → Prop}
    (hvisit : ∀ v ∈ a.visits w, R v.2 → R (a.visit v.1 v.2).2)
    (hskip : ∀ m ∈ a.allMissed w, ∀ q, R q → R (skip m q)) (hstart : R a.start) :
    (∀ v ∈ a.visits w, R v.2) ∧ (∀ p ∈ a.moments w, R p) ∧ R (a.finish w).2 := by
  rw [finish]
  obtain ⟨hvisits, hmoments, hend⟩ := analyzeLevels_keeps _ _ hvisit hskip hstart
  exact ⟨hvisits, List.forall_mem_cons.2 ⟨hstart, hmoments⟩, hend⟩

theorem analyzeLevels_mem_moments (g : CallGraph) (levels : List (List Component)) (p : Progress) :
    (a.analyzeLevels g w levels p).2 ∈ p :: a.levelMoments g w levels p := by
  induction levels generalizing p with
  | nil => exact List.mem_cons_self
  | cons level levels ih =>
    refine List.mem_cons_of_mem p (List.mem_append_right _ ?_)
    rcases List.mem_cons.1 (ih _) with hend | hend
    · refine List.mem_append_left _ (List.mem_map.2 ⟨a.missed w level, ?_, hend.symm⟩)
      exact (List.mem_inits _ _).2 (List.prefix_refl _)
    · exact List.mem_append_right _ hend

/-- The end is the last moment. -/
theorem finish_mem_moments (a : Analysis) (w : Course) : (a.finish w).2 ∈ a.moments w := by
  rw [finish]
  exact analyzeLevels_mem_moments _ _ a.start

/-! ### Runs that skip nothing -/

theorem componentVisits_of_bodies_eq_nil (g : CallGraph) {c : Component} (h : a.bodies c = [])
    (p : Progress) : a.componentVisits g c p = [] := by
  have hstabilize (further : Nat) : a.stabilizeVisits [] further p = [] := by
    cases further <;> rfl
  rw [componentVisits, h, hstabilize]
  exact ite_self _

theorem allVisits_inTime (g : CallGraph) {level : List Component} (h : a.missed w level = [])
    (p : Progress) : a.allVisits g (a.inTime w level) p = a.allVisits g level p := by
  induction level generalizing p with
  | nil => rfl
  | cons c level ih =>
    rw [missed] at h ih
    rw [inTime] at ih ⊢
    cases hlate : a.isLate w c with
    | false =>
      rw [List.filter_cons_of_neg (by simp [hlate])] at h
      rw [List.filter_cons_of_pos (by simp [hlate]), allVisits, allVisits, ih h]
    | true =>
      rw [List.filter_cons_of_pos hlate, List.flatMap_cons, List.append_eq_nil_iff] at h
      rw [List.filter_cons_of_neg (by simp [hlate]), allVisits, ih h.2,
        analyzeComponent_of_bodies_eq_nil g h.1, componentVisits_of_bodies_eq_nil g h.1]
      rfl

theorem allVisits_append (g : CallGraph) (cs cs' : List Component) (p : Progress) :
    a.allVisits g (cs ++ cs') p =
      a.allVisits g cs p ++ a.allVisits g cs' (a.analyzeAll g cs p).2 := by
  induction cs generalizing p with
  | nil => rfl
  | cons c cs ih =>
    rw [List.cons_append, allVisits, allVisits, ih, List.append_assoc]
    rfl

theorem levelVisits_of_missed (g : CallGraph) {levels : List (List Component)}
    (h : levels.flatMap (a.missed w) = []) (p : Progress) :
    a.levelVisits g w levels p = a.allVisits g levels.flatten p := by
  induction levels generalizing p with
  | nil => rfl
  | cons level levels ih =>
    rw [List.flatMap_cons, List.append_eq_nil_iff] at h
    rw [List.flatten_cons, allVisits_append, ← ih h.2, levelVisits, allVisits_inTime g h.1,
      analyzeAll_inTime g h.1, h.1]
    rfl

theorem visits_of_onTime (h : a.OnTime w) :
    a.visits w = a.allVisits (CallGraph.build a.program) (a.order w) a.start :=
  levelVisits_of_missed _ h a.start

theorem finish_leads (h : a.OnTime w) : a.Leads a.start (a.visits w) (a.finish w).2 := by
  rw [finish_of_onTime h, visits_of_onTime h]
  exact analyzeAll_leads _ (a.order w) a.start

/-! ### Growth -/

theorem summary_le_visit (m : Method) (p : Progress) (k : MethodId) :
    (p.summaries.getD k ∅).le ((a.visit m p).2.summaries.getD k ∅) = true := by
  by_cases hk : k = m.id
  · rw [hk, visit_getD_summary]
    exact Model.le_join_left _ _
  · rw [visit_getD_summary_of_ne hk]
    exact Model.le_refl _

theorem Leads.summaries_le (h : a.Leads p vs p') (k : MethodId) :
    (p.summaries.getD k ∅).le (p'.summaries.getD k ∅) = true :=
  h.keeps (R := fun q => (p.summaries.getD k ∅).le (q.summaries.getD k ∅) = true)
    (fun _ _ hle => Model.le_trans hle (summary_le_visit _ _ k)) (Model.le_refl _)

/-- Beside the ports of the declared model a summary lists only ports that hold a frame. -/
theorem Leads.summaries_over (h : a.Leads p vs p') {k : MethodId} {base : Model}
    (hp : base.Over (p.summaries.getD k ∅)) : base.Over (p'.summaries.getD k ∅) := by
  refine h.keeps (R := fun q => base.Over (q.summaries.getD k ∅)) (fun v _ hover => ?_) hp
  by_cases hk : k = v.1.id
  · rw [hk, visit_getD_summary, ← hk]
    exact hover.join (occupied_verdict _ _)
  · rw [visit_getD_summary_of_ne hk]
    exact hover

/-- What is inferred on the way is in the final summaries. -/
theorem verdict_le_finish (h : a.OnTime w) {v : Method × Progress} (hv : v ∈ a.visits w) :
    (a.verdict (a.callee v.2) v.1).model.le ((a.finish w).2.summaries.getD v.1.id ∅) = true := by
  obtain ⟨vs, hafter⟩ := (finish_leads h).after hv
  refine Model.le_trans ?_ (hafter.summaries_le v.1.id)
  rw [visit_getD_summary]
  exact Model.le_join_right _ _

/-! ### Turns -/

/-- What is known when the analysis of a component begins. -/
structure Turn (a : Analysis) (w : Course) (c : Component) (p : Progress) : Prop where
  visits : ∀ v ∈ a.componentVisits (CallGraph.build a.program) c p, v ∈ a.visits w
  own : ∀ k ∈ c, p.summaries.get? k = a.start.summaries.get? k
  callees : ∀ m ∈ c, ∀ k, (CallGraph.build a.program).Calls m k → k ∉ c →
    p.summaries.get? k = (a.finish w).2.summaries.get? k
  after : ∀ k ∈ c, (a.finish w).2.summaries.get? k =
    (a.analyzeComponent (CallGraph.build a.program) c p).2.summaries.get? k

theorem calleesFirst_append {g : CallGraph} {earlier : List MethodId} {cs cs' : List Component} :
    g.calleesFirst earlier (cs ++ cs') = true →
      g.calleesFirst (earlier ++ cs.flatten) cs' = true := by
  induction cs generalizing earlier with
  | nil => simp
  | cons c cs ih =>
    intro h
    have hrest := ih (CallGraph.calleesFirst_cons.1 h).2
    rwa [List.append_assoc, ← List.flatten_cons] at hrest

/-- The turn of a component. What comes before it and after it leaves the methods of the component
as they are. -/
theorem exists_turn_apart (ha : a.Thorough w) {c : Component} (hc : c ∈ a.order w) :
    ∃ p before after, a.Turn w c p ∧ SameOutside before a.start p ∧
      SameOutside after (a.analyzeComponent (CallGraph.build a.program) c p).2 (a.finish w).2 ∧
      ∀ k ∈ c, k ∉ before ∧ k ∉ after := by
  let g := CallGraph.build a.program
  have hp := ha.wellFormed
  obtain ⟨earlier, later, horder⟩ := List.append_of_mem hc
  have hnodup := nodup_flatten_order hp ha.finds
  have hfirst := calleesFirst_order hp ha.finds
  rw [horder] at hnodup hfirst
  rw [List.flatten_append, List.flatten_cons] at hnodup
  obtain ⟨-, hrest, hbefore⟩ := List.nodup_append.1 hnodup
  obtain ⟨-, -, hafter⟩ := List.nodup_append.1 hrest
  obtain ⟨hcalls, -⟩ := CallGraph.calleesFirst_cons.1 (calleesFirst_append hfirst)
  let p := (a.analyzeAll g earlier a.start).2
  have hfinish : (a.finish w).2 = (a.analyzeAll g later (a.analyzeComponent g c p).2).2 := by
    rw [finish_of_onTime ha.onTime, horder, analyzeAll_append]
    rfl
  have hanalyzed {cs : List Component} {k : MethodId} (hk : k ∉ cs.flatten) :
      k ∉ cs.flatMap a.analyzedIds := fun hmem => by
    obtain ⟨c, hc, hkc⟩ := List.mem_flatMap.1 hmem
    exact hk (List.mem_flatten.2 ⟨c, hc, analyzedIds_subset hp hkc⟩)
  have hstart : SameOutside (earlier.flatMap a.analyzedIds) a.start p :=
    a.analyzeAll_sameOutside g earlier a.start
  have hend :
      SameOutside (later.flatMap a.analyzedIds) (a.analyzeComponent g c p).2 (a.finish w).2 := by
    rw [hfinish]
    exact a.analyzeAll_sameOutside g later _
  have hown : ∀ k ∈ c, k ∉ earlier.flatMap a.analyzedIds ∧ k ∉ later.flatMap a.analyzedIds :=
    fun k hk => ⟨hanalyzed fun hmem => hbefore k hmem k (List.mem_append.2 (.inl hk)) rfl,
      hanalyzed fun hmem => hafter k hk k hmem rfl⟩
  refine ⟨p, _, _, ⟨fun v hv => ?_, fun k hk => hstart.summaries k (hown k hk).1,
    fun m hm k hmk hk => ?_, fun k hk => hend.summaries k (hown k hk).2⟩, hstart, hend, hown⟩
  · rw [visits_of_onTime ha.onTime, horder, allVisits_append]
    exact List.mem_append.2 (.inr (List.mem_append.2 (.inl hv)))
  · have hmem : k ∈ earlier.flatten := by simpa [hk] using hcalls m hm k hmk
    rw [hend.summaries k (hanalyzed fun h => hbefore k hmem k (List.mem_append.2 (.inr h)) rfl)]
    exact ((a.analyzeComponent_sameOutside g c p).summaries k
      fun h => hk (analyzedIds_subset hp h)).symm

theorem exists_turn (ha : a.Thorough w) {c : Component} (hc : c ∈ a.order w) :
    ∃ p, a.Turn w c p := by
  obtain ⟨p, -, -, hturn, -⟩ := exists_turn_apart ha hc
  exact ⟨p, hturn⟩

theorem mem_passVisits {ms : List Method} {v : Method × Progress}
    (hv : v ∈ a.passVisits ms p) : v.1 ∈ ms := by
  induction ms generalizing p with
  | nil => cases hv
  | cons m ms ih =>
    rcases List.mem_cons.1 hv with rfl | hv
    · exact List.mem_cons_self
    · exact List.mem_cons_of_mem m (ih hv)

theorem mem_stabilizeVisits {ms : List Method} {further : Nat} {v : Method × Progress}
    (hv : v ∈ a.stabilizeVisits ms further p) : v.1 ∈ ms := by
  induction further generalizing p with
  | zero => exact mem_passVisits hv
  | succ further ih =>
    rcases List.mem_append.1 hv with hv | hv
    · exact mem_passVisits hv
    · split at hv
      · exact ih hv
      · cases hv

theorem mem_componentVisits {g : CallGraph} {c : Component} {v : Method × Progress}
    (hv : v ∈ a.componentVisits g c p) : v.1 ∈ a.bodies c := by
  unfold componentVisits at hv
  split at hv
  · exact mem_stabilizeVisits hv
  · exact mem_passVisits hv

theorem mem_allVisits {g : CallGraph} {cs : List Component} {v : Method × Progress}
    (hv : v ∈ a.allVisits g cs p) : ∃ c ∈ cs, v.1 ∈ a.bodies c := by
  induction cs generalizing p with
  | nil => cases hv
  | cons c cs ih =>
    rcases List.mem_append.1 hv with hv | hv
    · exact ⟨c, List.mem_cons_self, mem_componentVisits hv⟩
    · obtain ⟨c', hc', hbodies⟩ := ih hv
      exact ⟨c', List.mem_cons_of_mem c hc', hbodies⟩

theorem mem_levelVisits {g : CallGraph} {levels : List (List Component)} {v : Method × Progress}
    (hv : v ∈ a.levelVisits g w levels p) : ∃ c ∈ levels.flatten, v.1 ∈ a.bodies c := by
  induction levels generalizing p with
  | nil => cases hv
  | cons level levels ih =>
    rcases List.mem_append.1 hv with hv | hv
    · obtain ⟨c, hc, hbodies⟩ := mem_allVisits hv
      exact ⟨c, List.mem_append_left _ (List.mem_filter.1 hc).1, hbodies⟩
    · obtain ⟨c, hc, hbodies⟩ := ih hv
      exact ⟨c, List.mem_append_right _ hc, hbodies⟩

/-- What is visited is a method of the program with a body. -/
theorem mem_visits (hp : a.program.WellFormed) {v : Method × Progress} (hv : v ∈ a.visits w) :
    v.1 ∈ a.program.methods ∧ v.1.hasBody = true := by
  obtain ⟨c, -, hc⟩ := mem_levelVisits hv
  obtain ⟨hm, -, hbody⟩ := (mem_bodies hp).1 hc
  exact ⟨hm, hbody⟩

end Analysis

end TaintFlow
