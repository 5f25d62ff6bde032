import TaintFlow.Proofs.LoopHeads
import TaintFlow.Proofs.Visits

/-!
What a run without conditions says about fixpoints. The last visit to every method sees the final
summaries of its callees (`Analysis.exists_isLast`): a recursive component ends with a pass in which
no summary grows, and what is analyzed after a component is not called by it. The bound on the
passes over the body of a loop raises no condition, however. All that is said of the loops of the
last visits is that their heads are stable or that they made all the passes that they may make
(`Analysis.run_loops`).
-/

namespace TaintFlow

namespace Analysis

variable {a : Analysis} {w : Course} {m : Method} {p : Progress}
  {vs vs' : List (Method × Progress)} {v v' : Method × Progress}

/-! ### Last visits -/

def IsLast (vs : List (Method × Progress)) (v : Method × Progress) : Prop :=
  ∃ before after, vs = before ++ v :: after ∧ ∀ u ∈ after, u.1.id ≠ v.1.id

theorem IsLast.append_left (h : IsLast vs v) (vs' : List (Method × Progress)) :
    IsLast (vs' ++ vs) v := by
  obtain ⟨before, after, rfl, hafter⟩ := h
  exact ⟨vs' ++ before, after, (List.append_assoc ..).symm, hafter⟩

theorem IsLast.append_right (h : IsLast vs v) (hvs' : ∀ u ∈ vs', u.1.id ≠ v.1.id) :
    IsLast (vs ++ vs') v := by
  obtain ⟨before, after, rfl, hafter⟩ := h
  refine ⟨before, after ++ vs', by rw [List.append_assoc, List.cons_append], fun u hu => ?_⟩
  exact (List.mem_append.1 hu).elim (hafter u) (hvs' u)

theorem isLast_cons (h : ∀ u ∈ vs, u.1.id ≠ v.1.id) : IsLast (v :: vs) v := ⟨[], vs, rfl, h⟩

/-- A method has only one last visit. -/
theorem IsLast.unique (h : IsLast vs v) (h' : IsLast vs v') (hid : v.1.id = v'.1.id) : v = v' := by
  obtain ⟨before, after, rfl, hafter⟩ := h
  obtain ⟨before', after', heq, hafter'⟩ := h'
  rcases List.append_eq_append_iff.1 heq with ⟨between, -, hbetween⟩ | ⟨between, -, hbetween⟩
  · cases between with
    | nil => exact (List.cons.inj hbetween).1
    | cons u between =>
      obtain ⟨rfl, rfl⟩ := List.cons.inj hbetween
      exact absurd hid.symm (hafter v' (List.mem_append.2 (.inr List.mem_cons_self)))
  · cases between with
    | nil => exact (List.cons.inj hbetween).1.symm
    | cons u between =>
      obtain ⟨rfl, rfl⟩ := List.cons.inj hbetween
      exact absurd hid (hafter' v (List.mem_append.2 (.inr List.mem_cons_self)))

/-- In a pass that grows nothing the last visits see the summaries at its end. -/
theorem pass_isLast {ms : List Method} (hnodup : (ms.map Method.id).Nodup)
    (h : (a.pass ms p).1 = false) (hm : m ∈ ms) :
    ∃ q, IsLast (a.passVisits ms p) (m, q) ∧ (a.pass ms p).2.summaries = q.summaries := by
  induction ms generalizing p with
  | nil => cases hm
  | cons m' ms ih =>
    obtain ⟨hnot, hnodup⟩ := List.nodup_cons.1 hnodup
    rcases List.mem_cons.1 hm with rfl | hm
    · refine ⟨p, isLast_cons fun u hu hid => hnot ?_, pass_summaries h⟩
      exact List.mem_map.2 ⟨u.1, mem_passVisits hu, hid⟩
    · obtain ⟨q, hlast, hsummaries⟩ := ih hnodup (Bool.or_eq_false_iff.1 h).2 hm
      exact ⟨q, hlast.append_left [(m', p)], hsummaries⟩

theorem stabilize_isLast {ms : List Method} (hnodup : (ms.map Method.id).Nodup) (further : Nat)
    (h : (a.stabilize ms further p).1 = false) (hm : m ∈ ms) :
    ∃ q, IsLast (a.stabilizeVisits ms further p) (m, q) ∧
      (a.stabilize ms further p).2.summaries = q.summaries := by
  induction further generalizing p with
  | zero => exact pass_isLast hnodup h hm
  | succ further ih =>
    rw [stabilize] at h ⊢
    rw [stabilizeVisits]
    rcases hpass : a.pass ms p with ⟨_ | _, p'⟩
    · have hlast := pass_isLast hnodup (congrArg Prod.fst hpass) hm
      rw [hpass] at hlast
      simpa using hlast
    · rw [hpass] at h
      obtain ⟨q, hlast, hsummaries⟩ := ih h
      exact ⟨q, hlast.append_left _, hsummaries⟩

/-- In a component without a condition the last visits see the summaries at its end. -/
theorem analyzeComponent_isLast (hp : a.program.WellFormed) {c : Component} (hc : c.Nodup)
    (h : (a.analyzeComponent (CallGraph.build a.program) c p).1 = []) (hm : m ∈ a.bodies c) :
    ∃ q, IsLast (a.componentVisits (CallGraph.build a.program) c p) (m, q) ∧
      ∀ call ∈ m.calls, a.callee q call.2 =
        a.callee (a.analyzeComponent (CallGraph.build a.program) c p).2 call.2 := by
  have hnodup := nodup_analyzedIds hp hc
  rw [analyzeComponent_snd]
  unfold analyzeComponent at h
  unfold componentVisits
  simp only at h
  split at h
  · next hrecursive =>
    rw [if_pos hrecursive, if_pos hrecursive]
    rcases hstabilize : a.stabilize (a.bodies c) (a.heuristics.maxIterations - 1) p with ⟨_ | _, p'⟩
    · obtain ⟨q, hlast, hsummaries⟩ :=
        stabilize_isLast hnodup _ (congrArg Prod.fst hstabilize) hm
      rw [hstabilize] at hsummaries
      exact ⟨q, hlast, fun call _ => callee_congr fun callee _ => by rw [hsummaries]⟩
    · rw [hstabilize] at h
      cases h
  · next hrecursive =>
    rw [if_neg hrecursive, if_neg hrecursive]
    obtain ⟨hmethod, hid, hbody⟩ := (mem_bodies hp).1 hm
    obtain ⟨rfl, hself⟩ :=
      CallGraph.eq_singleton_of_not_isRecursive hid (Bool.not_eq_true _ ▸ hrecursive)
    rw [bodies_singleton hp hmethod, if_pos hbody]
    have houtside : a.CallsOutside [m.id] m := callsOutside hp hmethod fun k hk hmem =>
      hself (List.mem_singleton.1 hmem ▸ hk)
    refine ⟨p, isLast_cons nofun, fun call hcall => (callee_congr fun callee hcallee => ?_).symm⟩
    exact (a.visit_sameOutside m p).summaries callee.id (houtside call hcall callee hcallee)

/-- In components that come callees first, without a condition, the last visits see the summaries at
the end. -/
theorem analyzeAll_isLast (hp : a.program.WellFormed) {earlier : List MethodId}
    {cs : List Component} (hnodup : (earlier ++ cs.flatten).Nodup)
    (hfirst : (CallGraph.build a.program).calleesFirst earlier cs = true)
    (h : (a.analyzeAll (CallGraph.build a.program) cs p).1 = []) {c : Component} (hc : c ∈ cs)
    (hm : m ∈ a.bodies c) :
    ∃ q, IsLast (a.allVisits (CallGraph.build a.program) cs p) (m, q) ∧
      ∀ call ∈ m.calls, a.callee q call.2 =
        a.callee (a.analyzeAll (CallGraph.build a.program) cs p).2 call.2 := by
  induction cs generalizing earlier p with
  | nil => cases hc
  | cons c' cs ih =>
    obtain ⟨hcalls, hrest⟩ := CallGraph.calleesFirst_cons.1 hfirst
    obtain ⟨hcondition, hconditions⟩ := List.append_eq_nil_iff.1
      (show (a.analyzeComponent (CallGraph.build a.program) c' p).1 ++ _ = [] from h)
    rw [List.flatten_cons, ← List.append_assoc] at hnodup
    rcases List.mem_cons.1 hc with rfl | hc
    · obtain ⟨hleft, -, hdisjoint⟩ := List.nodup_append.1 hnodup
      obtain ⟨hmethod, hid, -⟩ := (mem_bodies hp).1 hm
      have hlater : ∀ k ∈ earlier ++ c, k ∉ cs.flatMap a.analyzedIds := by
        intro k hk hmem
        obtain ⟨c', hc', hkc⟩ := List.mem_flatMap.1 hmem
        exact hdisjoint k hk k (List.mem_flatten.2 ⟨c', hc', analyzedIds_subset hp hkc⟩) rfl
      have houtside : a.CallsOutside (cs.flatMap a.analyzedIds) m :=
        callsOutside hp hmethod fun k hk => hlater k (List.mem_append.2 (hcalls m.id hid k hk))
      obtain ⟨q, hlast, hcallees⟩ :=
        analyzeComponent_isLast hp (List.nodup_append.1 hleft).2.1 hcondition hm
      refine ⟨q, hlast.append_right fun u hu hu' => ?_, fun call hcall => ?_⟩
      · obtain ⟨c', hc', hbodies⟩ := mem_allVisits hu
        refine hlater m.id (List.mem_append.2 (.inr hid)) (List.mem_flatMap.2 ⟨c', hc', ?_⟩)
        exact List.mem_map.2 ⟨u.1, hbodies, hu'⟩
      · rw [hcallees call hcall]
        refine (callee_congr fun callee hcallee => ?_).symm
        exact (a.analyzeAll_sameOutside (CallGraph.build a.program) cs _).summaries callee.id
          (houtside call hcall callee hcallee)
    · obtain ⟨q, hlast, hcallees⟩ := ih hnodup hrest hconditions hc
      exact ⟨q, hlast.append_left _, hcallees⟩

/-- In a run without conditions every method with a body has a last visit, and its callees have their
final summaries by then. -/
theorem exists_isLast (hp : a.program.WellFormed) (hw : w.Finds a.program)
    (hrun : (a.runAlong w).conditions = []) (hm : m ∈ a.program.methods)
    (hbody : m.hasBody = true) :
    ∃ q, IsLast (a.visits w) (m, q) ∧
      ∀ call ∈ m.calls, a.callee q call.2 = a.callee (a.finish w).2 call.2 := by
  obtain ⟨hfinish, hontime⟩ := of_conditions_eq_nil hrun
  obtain ⟨c, hc, hmc⟩ := exists_mem_order hp hw hm
  have hnodup : ([] ++ (a.order w).flatten).Nodup := by
    rw [List.nil_append]
    exact nodup_flatten_order hp hw
  rw [finish_of_onTime hontime] at hfinish ⊢
  rw [visits_of_onTime hontime]
  exact analyzeAll_isLast hp hnodup (calleesFirst_order hp hw) hfinish hc
    ((mem_bodies hp).2 ⟨hm, hmc, hbody⟩)

/-! ### Complete runs -/

variable (a) in
def walkAt (m : Method) (p : Progress) : Walk := ⟨m, a.heuristics, a.callee p⟩

/-- If a run meets no condition, then every method with a body has a last analysis, which sees the
final summaries of its callees, and each loop that it comes to has a stable head or made all the
passes that it may make, each of which added something to the head. -/
theorem run_loops (hp : a.program.WellFormed) (hw : w.Finds a.program)
    (hrun : (a.runAlong w).conditions = []) :
    ∀ m ∈ a.program.methods, ∀ body, m.body = some body →
      (∃ q, IsLast (a.visits w) (m, q)) ∧
      ∀ q, IsLast (a.visits w) (m, q) →
        (∀ call ∈ m.calls, a.callee q call.2 = (a.runAlong w).callee call.2) ∧
        ∀ l ∈ (a.walkAt m q).loops body (a.walkAt m q).entry,
          l.Stable (a.walkAt m q) ∨ l.CutShort (a.walkAt m q) := by
  intro m hm body hbody
  have hhas : m.hasBody = true := by
    rw [Method.hasBody, hbody]
    rfl
  obtain ⟨last, hlast, hcallees⟩ := exists_isLast hp hw hrun hm hhas
  refine ⟨⟨last, hlast⟩, fun q hq => ⟨fun call hcall => ?_, fun l _ => l.stable_or_cutShort _⟩⟩
  obtain rfl : q = last := (Prod.mk.inj (hq.unique hlast rfl)).2
  rw [hcallees call hcall, run_callee hp]

/-- What is read in one pass is shown in the next but one. -/
def laggingLoop : Body :=
  .run ⟨1, none⟩ (.call "show" ["y"] none)
    (.run ⟨2, none⟩ (.move "y" "x")
      (.run ⟨3, none⟩ (.call "read" [] (some "x")) .done))

def lagging : Method := ⟨⟨2⟩, "main", [], some (.loop ⟨0, none⟩ laggingLoop .done), none⟩

def laggingWithin (passes : Nat) : Analysis where
  program := ⟨[
    ⟨⟨0⟩, "read", [], none, some ((∅ : Model).addGeneration .result (.ofKind ⟨0⟩) ∅)⟩,
    ⟨⟨1⟩, "show", ["x"], none, some ((∅ : Model).addSink (.argument 0) (.ofKind ⟨1⟩) ∅)⟩,
    lagging]⟩
  rules := (∅ : RuleSet).push
    ⟨"shown", 1, "", .direct (OrdSet.ofList [⟨0⟩]) (OrdSet.ofList [⟨1⟩]), none, none⟩
  kinds := ⟨[.named "Source", .named "Sink"]⟩
  heuristics := { maxLoopIterations := passes }

theorem laggingWithin_wellFormed (passes : Nat) : (laggingWithin passes).program.WellFormed where
  ids i m h := by
    match i with
    | 0 | 1 | 2 =>
      cases h
      rfl
    | i + 3 => cases h
  names := by
    show ["read", "show", "main"].Nodup
    decide

theorem run_loops_lagging :
    let a := laggingWithin 4
    (a.runAlong a.swift).conditions = [] ∧
      ∀ l ∈ (a.walkAt lagging a.start).loops (.loop ⟨0, none⟩ laggingLoop .done)
          (a.walkAt lagging a.start).entry,
        l.Stable (a.walkAt lagging a.start) ∨ l.CutShort (a.walkAt lagging a.start) := by
  intro a
  have hp : a.program.WellFormed := laggingWithin_wellFormed 4
  have hrun : (a.runAlong a.swift).conditions = [] := by decide
  have hvisits : a.visits a.swift = [(lagging, a.start)] := by decide
  obtain ⟨-, hloops⟩ := run_loops hp (Course.finds_swift hp) hrun lagging (by decide) _ rfl
  exact ⟨hrun, (hloops _ (hvisits ▸ isLast_cons nofun)).2⟩

/-- A run without conditions may have cut a loop short, and leave its head unstable. -/
theorem lagging_not_stable :
    ¬ ∀ (a : Analysis) (w : Course), a.program.WellFormed → w.Finds a.program →
      (a.runAlong w).conditions = [] →
      ∀ m ∈ a.program.methods, ∀ body, m.body = some body →
        ∀ q, IsLast (a.visits w) (m, q) →
          ∀ l ∈ (a.walkAt m q).loops body (a.walkAt m q).entry, l.Stable (a.walkAt m q) := by
  intro hstable
  let a := laggingWithin 1
  have hp : a.program.WellFormed := laggingWithin_wellFormed 1
  have hvisits : a.visits a.swift = [(lagging, a.start)] := by decide
  have hloop : ¬ (⟨laggingLoop, (a.walkAt lagging a.start).entry⟩ : Walk.Loop).Stable
      (a.walkAt lagging a.start) := by decide
  exact hloop <| hstable a a.swift hp (Course.finds_swift hp) (by decide) lagging (by decide) _ rfl
    _ (hvisits ▸ isLast_cons nofun) _ (List.mem_append_left _ List.mem_cons_self)

end Analysis

end TaintFlow
