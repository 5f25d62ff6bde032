import TaintFlow.Proofs.CallLevels
import TaintFlow.Proofs.Stability

/-!
Runs along a course. A course says in which order a search finds the components of the call graph
and when the turn of each one comes. Of the list it is only asked that it is condensed
(`Course.Finds`), so the components in the order of their analysis are the classes of methods that
reach each other, callees first (`Analysis.calleesFirst_order`). A run that misses no method
analyzes them all, one after another (`finish_of_onTime`), as does every run without conditions.
-/

namespace TaintFlow

namespace CallGraph

variable {g : CallGraph} {cs : List Component} {c : Component}

/-- The components of a condensed list are those of `CallGraph.components`, up to the order of their
methods. -/
theorem Condensed.exists_componentOf (hg : g.Closed) (hcs : g.Condensed cs) (hc : c ∈ cs) :
    ∃ m ∈ g.methods, (OrdSet.ofList c).toList = componentOf g.reaches m := by
  obtain ⟨m, hm, hclass⟩ := hcs.classes c hc
  have hascending : (componentOf g.reaches m).Pairwise fun i j => compare i j = .lt :=
    (OrdSet.pairwise_toList _).filter _
  refine ⟨m, hm, ?_⟩
  rw [← OrdSet.toList_ofList hascending]
  refine congrArg OrdSet.toList (OrdSet.ext fun k => ?_)
  rw [OrdSet.mem_ofList, OrdSet.mem_ofList, hclass, mem_componentOf hg hm]

end CallGraph

namespace Analysis

namespace Course

/-- What is found are the components of the call graph of a program, callees first. -/
def Finds (w : Course) (p : Program) : Prop := (CallGraph.build p).Condensed w.found

variable {w : Course} {p : Program} {c : Component}

theorem mem_components : c ∈ w.components ↔ ∃ k ∈ w.found, (OrdSet.ofList k).toList = c :=
  List.mem_map

theorem nodup_of_mem_components (hc : c ∈ w.components) : c.Nodup := by
  obtain ⟨k, -, rfl⟩ := mem_components.1 hc
  exact OrdSet.nodup_toList _

/-- To list the methods of components in order keeps the list condensed. -/
theorem Finds.condensed (hw : w.Finds p) : (CallGraph.build p).Condensed w.components where
  classes c hc := by
    obtain ⟨k, hk, rfl⟩ := mem_components.1 hc
    obtain ⟨m, hm, hclass⟩ := hw.classes k hk
    refine ⟨m, hm, fun i => ?_⟩
    rw [OrdSet.mem_toList, OrdSet.mem_ofList]
    exact hclass i
  covers m hm := by
    obtain ⟨k, hk, hmem⟩ := hw.covers m hm
    exact ⟨_, mem_components.2 ⟨k, hk, rfl⟩, OrdSet.mem_toList.2 (OrdSet.mem_ofList.2 hmem)⟩
  apart := List.pairwise_map.2 <| hw.apart.imp fun hapart i hi hi' =>
    hapart (OrdSet.mem_ofList.1 (OrdSet.mem_toList.1 hi))
      (OrdSet.mem_ofList.1 (OrdSet.mem_toList.1 hi'))
  ordered := List.pairwise_map.2 <| hw.ordered.imp fun hcalls hinto => by
    obtain ⟨hne, i, hi, j, hj, hij⟩ := hinto
    rw [OrdSet.mem_toList, OrdSet.mem_ofList] at hi hj
    exact hcalls ⟨fun heq => hne (by rw [heq]), i, hi, j, hj, hij⟩

/-- Every course has the same components, whatever their order. -/
theorem Finds.mem_components_iff (hw : w.Finds p) (hp : p.WellFormed) :
    c ∈ w.components ↔ c ∈ (CallGraph.build p).components := by
  have hg := CallGraph.closed_build hp
  rw [CallGraph.mem_components]
  constructor
  · rw [mem_components]
    rintro ⟨k, hk, rfl⟩
    obtain ⟨m, hm, hsame⟩ := hw.exists_componentOf hg hk
    exact ⟨m, hm, hsame.symm⟩
  · rintro ⟨m, hm, rfl⟩
    obtain ⟨c, hc, hmc⟩ := hw.condensed.covers m hm
    obtain ⟨k, hk, rfl⟩ := mem_components.1 hc
    obtain ⟨m', hm', hsame⟩ := hw.exists_componentOf hg hk
    rw [hsame] at hc hmc
    rwa [CallGraph.componentOf_eq hg hm' hmc]

theorem finds_swift {a : Analysis} (hp : a.program.WellFormed) : a.swift.Finds a.program :=
  CallGraph.condensed_components (CallGraph.closed_build hp)

end Course

variable (a : Analysis)

def order (w : Course) : List Component := ((CallGraph.build a.program).levels w.components).flatten

/-- What is known when all levels are done, with the conditions met on the way. -/
@[irreducible]
def finish (w : Course) : List Condition × Progress :=
  a.analyzeLevels (CallGraph.build a.program) w ((CallGraph.build a.program).levels w.components)
    a.start

def allMissed (w : Course) : List Method :=
  ((CallGraph.build a.program).levels w.components).flatMap (a.missed w)

variable {a} {w : Course} {m : Method} {c : Component} {p : Progress}

theorem runAlong_eq (a : Analysis) (w : Course) :
    a.runAlong w =
      { issues := (a.issues (CallGraph.build a.program) (a.finish w).2).values
        models := OrdMap.ofList (fun _ later => later)
          ((a.finish w).2.summaries.entries.map fun e => (a.program.nameOf e.1, e.2))
        conditions := (a.finish w).1 ++ a.budgetConditions (a.allMissed w)
        analyzed := (a.finish w).2.matched.size
        pending := (a.finish w).2.stash.pending } := by
  rw [finish]
  rfl

theorem issues_runAlong (a : Analysis) (w : Course) :
    (a.runAlong w).issues = (a.issues (CallGraph.build a.program) (a.finish w).2).values :=
  congrArg Result.issues (runAlong_eq a w)

theorem models_runAlong (a : Analysis) (w : Course) :
    (a.runAlong w).models = OrdMap.ofList (fun _ later => later)
      ((a.finish w).2.summaries.entries.map fun e => (a.program.nameOf e.1, e.2)) :=
  congrArg Result.models (runAlong_eq a w)

/-! ### The order of analysis -/

section WellFormed

variable (hp : a.program.WellFormed) (hw : w.Finds a.program)

include hp hw

theorem mem_order : c ∈ a.order w ↔ c ∈ (CallGraph.build a.program).components :=
  CallGraph.mem_flatten_levels.trans (hw.mem_components_iff hp)

theorem nodup_flatten_order : (a.order w).flatten.Nodup := by
  have hg := CallGraph.closed_build hp
  refine List.nodup_flatten.2 ⟨fun c hc => ?_, ?_⟩
  · obtain ⟨m, -, rfl⟩ := CallGraph.mem_components.1 ((mem_order hp hw).1 hc)
    exact (OrdSet.nodup_toList _).filter _
  · have hnodup : (a.order w).Nodup := CallGraph.nodup_flatten_levels hw.condensed.nodup
    refine hnodup.imp_of_mem fun {c c'} hc hc' hne => ?_
    exact CallGraph.components_disjoint hg ((mem_order hp hw).1 hc) ((mem_order hp hw).1 hc') hne

theorem calleesFirst_order : (CallGraph.build a.program).calleesFirst [] (a.order w) = true :=
  CallGraph.calleesFirst_levels hw.condensed.nodup
    (hw.condensed.calleesFirst (CallGraph.closed_build hp))

theorem exists_mem_order (hm : m ∈ a.program.methods) : ∃ c ∈ a.order w, m.id ∈ c := by
  have hmethod := (CallGraph.mem_methods_build hp).2 ⟨m, hm, rfl⟩
  obtain ⟨c, hc, hmc⟩ := hw.condensed.covers m.id hmethod
  exact ⟨c, CallGraph.mem_flatten_levels.2 hc, hmc⟩

end WellFormed

/-! ### Skipped methods -/

theorem skip_sameOutside (m : Method) (p : Progress) : SameOutside [m.id] p (skip m p) where
  summaries k hk := by rw [skip, OrdMap.get?_insert, if_neg (by simpa using hk)]
  matched _ _ := rfl
  stash := .refl _ p.stash
  present k hk := by
    rw [skip, OrdMap.contains, OrdMap.get?_insert]
    split
    · rfl
    · exact hk

theorem skipAll_sameOutside (ms : List Method) (p : Progress) :
    SameOutside (ms.map Method.id) p (skipAll ms p) := by
  induction ms generalizing p with
  | nil => exact .refl _ p
  | cons m ms ih =>
    have hfirst : SameOutside ((m :: ms).map Method.id) p (skip m p) :=
      (skip_sameOutside m p).mono (by simp)
    exact hfirst.trans ((ih (skip m p)).mono (by simp +contextual))

/-- Outside the components of its levels a run changes nothing. -/
theorem analyzeLevels_sameOutside (g : CallGraph) (levels : List (List Component)) (p : Progress) :
    SameOutside (levels.flatten.flatMap a.analyzedIds) p (a.analyzeLevels g w levels p).2 := by
  induction levels generalizing p with
  | nil => exact .refl _ p
  | cons level levels ih =>
    have hanalyzed := a.analyzeAll_sameOutside g (a.inTime w level) p
    have hskipped := skipAll_sameOutside (a.missed w level)
      (a.analyzeAll g (a.inTime w level) p).2
    refine (hanalyzed.mono fun k hk => ?_).trans
      ((hskipped.mono fun k hk => ?_).trans ((ih _).mono fun k hk => ?_))
    · obtain ⟨c, hc, hk⟩ := List.mem_flatMap.1 hk
      have hlevel := (List.mem_filter.1 hc).1
      exact List.mem_flatMap.2 ⟨c, List.mem_append_left _ hlevel, hk⟩
    · obtain ⟨m, hm, rfl⟩ := List.mem_map.1 hk
      obtain ⟨c, hc, hm⟩ := List.mem_flatMap.1 hm
      have hlevel := (List.mem_filter.1 hc).1
      exact List.mem_flatMap.2 ⟨c, List.mem_append_left _ hlevel, List.mem_map_of_mem hm⟩
    · obtain ⟨c, hc, hk⟩ := List.mem_flatMap.1 hk
      exact List.mem_flatMap.2 ⟨c, List.mem_append_right _ hc, hk⟩

theorem finish_sameOutside :
    SameOutside ((a.order w).flatMap a.analyzedIds) a.start (a.finish w).2 := by
  rw [finish]
  exact analyzeLevels_sameOutside _ _ a.start

/-! ### Runs that skip nothing -/

variable (a w) in
def OnTime : Prop := a.allMissed w = []

theorem budgetConditions_eq_nil {ms : List Method} (h : a.budgetConditions ms = []) : ms = [] := by
  unfold budgetConditions at h
  simp only at h
  split at h
  · next hempty =>
    refine List.eq_nil_iff_forall_not_mem.2 fun m hm => ?_
    exact OrdSet.isEmpty_iff.1 hempty m.id (OrdSet.mem_ofList.2 (List.mem_map_of_mem hm))
  · cases h

/-- Nothing is skipped in a run without conditions. -/
theorem of_conditions_eq_nil (h : (a.runAlong w).conditions = []) :
    (a.finish w).1 = [] ∧ a.OnTime w := by
  rw [runAlong_eq] at h
  obtain ⟨hfinish, hbudget⟩ := List.append_eq_nil_iff.1 h
  exact ⟨hfinish, budgetConditions_eq_nil hbudget⟩

/-- Nothing is skipped without a time budget. -/
theorem onTime_of_none (h : a.heuristics.timeoutSeconds = none) : a.OnTime w := by
  have hlate (c : Component) : a.isLate w c = false := by
    rw [isLate, Heuristics.timeIsUp, h]
    rfl
  refine List.flatMap_eq_nil_iff.2 fun level _ => ?_
  rw [missed, List.filter_eq_nil_iff.2 fun c _ => by simp [hlate c]]
  rfl

/-- A run that analyzes every component of a well-formed program. -/
structure Thorough (a : Analysis) (w : Course) : Prop where
  wellFormed : a.program.WellFormed
  finds : w.Finds a.program
  onTime : a.OnTime w

theorem thorough_of_none (hp : a.program.WellFormed) (hw : w.Finds a.program)
    (h : a.heuristics.timeoutSeconds = none) : a.Thorough w := ⟨hp, hw, onTime_of_none h⟩

theorem thorough_of_conditions_eq_nil (hp : a.program.WellFormed) (hw : w.Finds a.program)
    (h : (a.runAlong w).conditions = []) : a.Thorough w := ⟨hp, hw, (of_conditions_eq_nil h).2⟩

theorem analyzeComponent_of_bodies_eq_nil (g : CallGraph) (h : a.bodies c = []) (p : Progress) :
    a.analyzeComponent g c p = ([], p) := by
  have hstabilize (further : Nat) : a.stabilize [] further p = (false, p) := by
    cases further <;> rfl
  unfold analyzeComponent
  simp only [h, hstabilize]
  split <;> rfl

theorem analyzeAll_cons (g : CallGraph) (c : Component) (cs : List Component) (p : Progress) :
    a.analyzeAll g (c :: cs) p =
      ((a.analyzeComponent g c p).1 ++ (a.analyzeAll g cs (a.analyzeComponent g c p).2).1,
        (a.analyzeAll g cs (a.analyzeComponent g c p).2).2) := rfl

theorem analyzeAll_append (g : CallGraph) (cs cs' : List Component) (p : Progress) :
    a.analyzeAll g (cs ++ cs') p =
      ((a.analyzeAll g cs p).1 ++ (a.analyzeAll g cs' (a.analyzeAll g cs p).2).1,
        (a.analyzeAll g cs' (a.analyzeAll g cs p).2).2) := by
  induction cs generalizing p with
  | nil => rfl
  | cons c cs ih => rw [List.cons_append, analyzeAll_cons, analyzeAll_cons, ih, List.append_assoc]

/-- Where nothing is skipped all components are analyzed: the late ones have no method to skip. -/
theorem analyzeAll_inTime (g : CallGraph) {level : List Component} (h : a.missed w level = [])
    (p : Progress) : a.analyzeAll g (a.inTime w level) p = a.analyzeAll g level p := by
  induction level generalizing p with
  | nil => rfl
  | cons c level ih =>
    rw [missed] at h ih
    rw [inTime] at ih ⊢
    cases hlate : a.isLate w c with
    | false =>
      rw [List.filter_cons_of_neg (by simp [hlate])] at h
      rw [List.filter_cons_of_pos (by simp [hlate]), analyzeAll_cons, analyzeAll_cons, ih h]
    | true =>
      rw [List.filter_cons_of_pos hlate, List.flatMap_cons, List.append_eq_nil_iff] at h
      rw [List.filter_cons_of_neg (by simp [hlate]), analyzeAll_cons, ih h.2,
        analyzeComponent_of_bodies_eq_nil g h.1]
      rfl

theorem analyzeLevels_of_missed (g : CallGraph) {levels : List (List Component)}
    (h : levels.flatMap (a.missed w) = []) (p : Progress) :
    a.analyzeLevels g w levels p = a.analyzeAll g levels.flatten p := by
  induction levels generalizing p with
  | nil => rfl
  | cons level levels ih =>
    rw [List.flatMap_cons, List.append_eq_nil_iff] at h
    rw [List.flatten_cons, analyzeAll_append, ← ih h.2, analyzeLevels, analyzeAll_inTime g h.1, h.1]
    rfl

/-- A run that skips nothing analyzes all components, one after another. -/
theorem finish_of_onTime (h : a.OnTime w) :
    a.finish w = a.analyzeAll (CallGraph.build a.program) (a.order w) a.start := by
  rw [finish]
  exact analyzeLevels_of_missed _ h a.start

end Analysis

end TaintFlow
