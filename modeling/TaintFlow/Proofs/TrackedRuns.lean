import TaintFlow.Proofs.StableResult

/-!
Two analyses of one program along one course, side by side. A relation between what the two know that
neither a visit nor a skip breaks holds all along (`Analysis.Tracks`). The two may need different
numbers of passes over a recursive component: once one of them is stable, its further passes would
change nothing, so the other one may catch up (`Tracks.stabilize`). Hence the relation holds at the
end (`Tracks.finish`).
-/

namespace TaintFlow

namespace Analysis

variable {a b : Analysis} {w : Course} {p p' q q' : Progress}

/-! ### Passes that change nothing -/

def Stable (a : Analysis) (ms : List Method) (p : Progress) : Prop :=
  (a.pass ms p).2.summaries = p.summaries ∧ (a.pass ms p).2.matched = p.matched

/-- Where all methods are settled, a further pass brings nothing new. -/
theorem stable_of_settled {ms : List Method} (h : ∀ m ∈ ms, Settled a p m) : Stable a ms p := by
  have hpass : ∀ p', p'.summaries = p.summaries → p'.matched = p.matched →
      (a.pass ms p').2.summaries = p.summaries ∧ (a.pass ms p').2.matched = p.matched := by
    induction ms with
    | nil => exact fun p' hsummaries hmatched => ⟨hsummaries, hmatched⟩
    | cons m ms ih =>
      intro p' hsummaries hmatched
      obtain ⟨hsummary, hown, -⟩ := h m List.mem_cons_self
      rw [← verdict_eq_of_summaries_eq hsummaries] at hsummary hown
      refine ih (fun m' hm' => h m' (List.mem_cons_of_mem m hm')) (a.visit m p').2 ?_ ?_
      · rw [visit_summaries, hsummaries, if_pos hsummary]
      · rw [visit_matched, hmatched]
        refine OrdMap.ext fun k => ?_
        rw [OrdMap.get?_insert]
        split
        · next hk => rw [hk, hown]
        · rfl
  exact hpass p rfl rfl

def Present (a : Analysis) (p : Progress) (ms : List Method) : Prop :=
  ∀ m ∈ ms, m ∈ a.program.methods ∧ p.summaries.contains m.id = true

theorem Present.of_sameOutside {ms : List Method} {ks : List MethodId} (h : Present a p ms)
    (hp : SameOutside ks p p') : Present a p' ms :=
  fun m hm => ⟨(h m hm).1, hp.present m.id (h m hm).2⟩

theorem present_bodies (hp : a.program.WellFormed) (c : Component) :
    Present a a.start (a.bodies c) := by
  intro m hm
  obtain ⟨hmethod, -, hbody⟩ := (mem_bodies hp).1 hm
  have hinitial : ∃ model, initialSummary m = some model := by
    rw [initialSummary, hbody]
    cases m.declared with
    | none => exact ⟨∅, rfl⟩
    | some model => exact ⟨model, rfl⟩
  obtain ⟨model, hmodel⟩ := hinitial
  exact ⟨hmethod, OrdMap.contains_iff.2
    ⟨model, (start_summaries_eq_some_iff hp).2 ⟨m, hmethod, rfl, hmodel⟩⟩⟩

/-! ### Relations that visits keep -/

/-- The two analyses are about one program, with the same time budget and the same number of passes,
and the relation looks at summaries and outcomes only, holds where nothing is analyzed yet, and is
kept by visits and skips. -/
structure Tracks (a b : Analysis) (M : Progress → Progress → Prop) : Prop where
  program : b.program = a.program
  budget : b.heuristics.timeoutSeconds = a.heuristics.timeoutSeconds
  passes : b.heuristics.maxIterations = a.heuristics.maxIterations
  congr : ∀ {p p' q q'}, M p q → p'.summaries = p.summaries → p'.matched = p.matched →
    q'.summaries = q.summaries → q'.matched = q.matched → M p' q'
  fresh : ∀ {p}, p.matched = ∅ → M p p
  visit : ∀ {p q m}, M p q → m ∈ a.program.methods → p.summaries.contains m.id = true →
    M (a.visit m p).2 (b.visit m q).2
  skip : ∀ {p q}, M p q → ∀ m, M (skip m p) (skip m q)

namespace Tracks

variable {M : Progress → Progress → Prop} (ht : Tracks a b M)

include ht

theorem pass {ms : List Method} (hms : Present a p ms) (h : M p q) :
    M (a.pass ms p).2 (b.pass ms q).2 := by
  induction ms generalizing p q with
  | nil => exact h
  | cons m ms ih =>
    obtain ⟨hm, hpresent⟩ := hms m List.mem_cons_self
    have hrest : Present a p ms := fun m' hm' => hms m' (List.mem_cons_of_mem m hm')
    exact ih (hrest.of_sameOutside (a.visit_sameOutside m p)) (ht.visit h hm hpresent)

/-- An analysis that is stable waits for the other one. -/
theorem stabilize_right {ms : List Method} (hms : Present a p ms) (hp : Stable a ms p)
    (further : Nat) (h : M p q) : M p (b.stabilize ms further q).2 := by
  have hpass (q) (h : M p q) : M p (b.pass ms q).2 :=
    ht.congr (ht.pass hms h) hp.1.symm hp.2.symm rfl rfl
  induction further generalizing q with
  | zero => exact hpass q h
  | succ further ih =>
    have hnext := hpass q h
    rw [Analysis.stabilize]
    rcases hq : b.pass ms q with ⟨_ | _, q'⟩
    · rw [hq] at hnext
      exact hnext
    · rw [hq] at hnext
      exact ih hnext

theorem stabilize_left {ms : List Method} (hms : Present a p ms) (hq : Stable b ms q)
    (further : Nat) (h : M p q) : M (a.stabilize ms further p).2 q := by
  have hpass (p) (hms : Present a p ms) (h : M p q) : M (a.pass ms p).2 q :=
    ht.congr (ht.pass hms h) rfl rfl hq.1.symm hq.2.symm
  induction further generalizing p with
  | zero => exact hpass p hms h
  | succ further ih =>
    have hnext := hpass p hms h
    have hpresent : Present a (a.pass ms p).2 ms := hms.of_sameOutside (a.pass_sameOutside ms p)
    rw [Analysis.stabilize]
    rcases hp : a.pass ms p with ⟨_ | _, p'⟩
    · rw [hp] at hnext
      exact hnext
    · rw [hp] at hnext hpresent
      exact ih hpresent hnext

theorem stabilize {ms : List Method} (hnodup : (ms.map Method.id).Nodup) (hms : Present a p ms)
    (further : Nat) (h : M p q) :
    M (a.stabilize ms further p).2 (b.stabilize ms further q).2 := by
  induction further generalizing p q with
  | zero => exact ht.pass hms h
  | succ further ih =>
    have hpass := ht.pass hms h
    have hpresent : Present a (a.pass ms p).2 ms := hms.of_sameOutside (a.pass_sameOutside ms p)
    have hp : (a.pass ms p).1 = false → Stable a ms (a.pass ms p).2 :=
      fun hgrown => stable_of_settled (pass_settled hnodup hgrown)
    have hq : (b.pass ms q).1 = false → Stable b ms (b.pass ms q).2 :=
      fun hgrown => stable_of_settled (pass_settled hnodup hgrown)
    rw [Analysis.stabilize, Analysis.stabilize]
    revert hpass hpresent hp hq
    rcases a.pass ms p with ⟨_ | _, p'⟩ <;> rcases b.pass ms q with ⟨_ | _, q'⟩ <;>
      intro hpass hpresent hp hq
    · exact hpass
    · exact ht.stabilize_right hpresent (hp rfl) further hpass
    · exact ht.stabilize_left hpresent (hq rfl) further hpass
    · exact ih hpresent hpass

theorem skipAll (ms : List Method) (h : M p q) : M (skipAll ms p) (skipAll ms q) := by
  induction ms generalizing p q with
  | nil => exact h
  | cons m ms ih => exact ih (ht.skip h m)

theorem bodies_eq : b.bodies = a.bodies := by
  funext c
  rw [bodies, bodies, ht.program]

theorem isLate_eq : b.isLate w = a.isLate w := by
  funext c
  rw [isLate, isLate, Heuristics.timeIsUp, Heuristics.timeIsUp, ht.budget]

section WellFormed

variable (hp : a.program.WellFormed)

include hp

theorem analyzeComponent {g : CallGraph} {c : Component} (hc : c.Nodup)
    (hms : Present a p (a.bodies c)) (h : M p q) :
    M (a.analyzeComponent g c p).2 (b.analyzeComponent g c q).2 := by
  rw [analyzeComponent_snd, analyzeComponent_snd, ht.bodies_eq, ht.passes]
  split
  · exact ht.stabilize (nodup_analyzedIds hp hc) hms _ h
  · exact ht.pass hms h

theorem analyzeAll {g : CallGraph} {cs : List Component} (hcs : ∀ c ∈ cs, c.Nodup)
    (hms : ∀ c ∈ cs, Present a p (a.bodies c)) (h : M p q) :
    M (a.analyzeAll g cs p).2 (b.analyzeAll g cs q).2 := by
  induction cs generalizing p q with
  | nil => exact h
  | cons c cs ih =>
    refine ih (fun c' hc' => hcs c' (List.mem_cons_of_mem c hc')) (fun c' hc' => ?_)
      (ht.analyzeComponent hp (hcs c List.mem_cons_self) (hms c List.mem_cons_self) h)
    exact (hms c' (List.mem_cons_of_mem c hc')).of_sameOutside
      (a.analyzeComponent_sameOutside g c p)

theorem analyzeLevels {g : CallGraph} {levels : List (List Component)}
    (hcs : ∀ c ∈ levels.flatten, c.Nodup)
    (hms : ∀ c ∈ levels.flatten, Present a p (a.bodies c)) (h : M p q) :
    M (a.analyzeLevels g w levels p).2 (b.analyzeLevels g w levels q).2 := by
  induction levels generalizing p q with
  | nil => exact h
  | cons level levels ih =>
    have hlevel (c) (hc : c ∈ a.inTime w level) : c ∈ (level :: levels).flatten :=
      List.mem_append_left _ (List.mem_filter.1 hc).1
    have hanalyzed := ht.analyzeAll hp (g := g) (fun c hc => hcs c (hlevel c hc))
      (fun c hc => hms c (hlevel c hc)) h
    have hinTime : b.inTime w level = a.inTime w level := by
      rw [inTime, inTime, ht.isLate_eq]
    have hmissed : b.missed w level = a.missed w level := by
      rw [missed, missed, ht.isLate_eq, ht.bodies_eq]
    rw [Analysis.analyzeLevels, Analysis.analyzeLevels, hinTime, hmissed]
    refine ih (fun c hc => hcs c (List.mem_append_right _ hc)) (fun c hc => ?_)
      (ht.skipAll (a.missed w level) hanalyzed)
    exact ((hms c (List.mem_append_right _ hc)).of_sameOutside
      (a.analyzeAll_sameOutside g _ p)).of_sameOutside (skipAll_sameOutside _ _)

/-- The relation holds at the end. -/
theorem finish (w : Course) : M (a.finish w).2 (b.finish w).2 := by
  have hstart : b.start = a.start := by
    rw [start, start, ht.program]
  rw [Analysis.finish, Analysis.finish, hstart, ht.program]
  refine ht.analyzeLevels hp (fun c hc => ?_) (fun c _ => present_bodies hp c) (ht.fresh rfl)
  exact Course.nodup_of_mem_components (CallGraph.mem_flatten_levels.1 hc)

end WellFormed

end Tracks

end Analysis

end TaintFlow
