import TaintFlow.Proofs.RelocatedAnalysis
import TaintFlow.Proofs.Stability

/-!
Matching under another id. The halves of a method wait at its own calls, and moving the calls moves
the halves (`Stash.Moved`). So the verdict on a moved method has the same model, and the same
findings, with deferred ones in the method's new place: `Analysis.verdict_withId`.
-/

namespace TaintFlow

/-! ### Waiting halves -/

def Stash.Moved (i j : MethodId) (s t : Stash) : Prop :=
  ∀ rule position label,
    t.halves.get? (rule, ⟨j, position⟩, label) = s.halves.get? (rule, ⟨i, position⟩, label)

namespace Stash

variable {i j : MethodId} {s t : Stash}

theorem moved_clear_empty (i j : MethodId) :
    Moved i j ((∅ : Stash).clear i) ((∅ : Stash).clear j) :=
  fun rule position label => by rw [get?_clear, get?_clear, if_pos rfl, if_pos rfl]

theorem Moved.fulfill (h : Moved i j s t) (rule : Int) (position : Nat) (label other : String)
    (sources : FrameSet) :
    (t.fulfill rule ⟨j, position⟩ label other sources).1 =
        (s.fulfill rule ⟨i, position⟩ label other sources).1 ∧
      Moved i j (s.fulfill rule ⟨i, position⟩ label other sources).2
        (t.fulfill rule ⟨j, position⟩ label other sources).2 := by
  have hown := h rule position label
  have hother := h rule position other
  unfold Stash.fulfill
  simp only [hother]
  cases s.halves.get? (rule, ⟨i, position⟩, other) with
  | none =>
    refine ⟨rfl, fun rule' position' label' => ?_⟩
    simp only [OrdMap.get?_update, OrdMap.getD, hown, h rule' position' label', Prod.mk.injEq,
      CallSite.mk.injEq, true_and]
  | some waiting =>
    constructor
    · simp only [OrdMap.getD, OrdMap.get?_erase, hown, Prod.mk.injEq, true_and]
    · intro rule' position' label'
      simp only [OrdMap.get?_erase, h rule' position' label', Prod.mk.injEq, CallSite.mk.injEq,
        true_and]

end Stash

/-! ### Findings -/

def Finding.moved (j : MethodId) : Finding → Finding
  | .issue i => .issue i
  | .deferred d => .deferred { d with method := j }

namespace Matcher

variable (m : Matcher) {i j : MethodId} {s t : Stash}

theorem meetHalf_moved (h : HalfHit) (position : Nat) (hst : Stash.Moved i j s t) :
    (meetHalf ⟨j, position⟩ h t).1 = (meetHalf ⟨i, position⟩ h s).1 ∧
      Stash.Moved i j (meetHalf ⟨i, position⟩ h s).2 (meetHalf ⟨j, position⟩ h t).2 := by
  obtain ⟨hmet, hrest⟩ := hst.fulfill h.rule.code position h.label h.other h.sources
  unfold meetHalf
  revert hmet hrest
  rcases s.fulfill h.rule.code ⟨i, position⟩ h.label h.other h.sources with
      ⟨_ | ⟨own, other⟩, s'⟩ <;>
    rcases t.fulfill h.rule.code ⟨j, position⟩ h.label h.other h.sources with
      ⟨_ | ⟨own', other'⟩, t'⟩ <;>
    rintro ⟨⟩ hrest
  · exact ⟨rfl, hrest⟩
  · exact ⟨rfl, hrest⟩

/-- Steps of which each yields the other's results renamed do so in turn. -/
theorem inTurn_map {α β : Type} (step step' : α → Stash → List β × Stash) (f : α → α) (g : β → β)
    {R : Stash → Stash → Prop} (as : List α)
    (h : ∀ a ∈ as, ∀ s t, R s t →
      (step' (f a) t).1 = (step a s).1.map g ∧ R (step a s).2 (step' (f a) t).2)
    (hst : R s t) :
    (inTurn step' (as.map f) t).1 = (inTurn step as s).1.map g ∧
      R (inTurn step as s).2 (inTurn step' (as.map f) t).2 := by
  induction as generalizing s t with
  | nil => exact ⟨rfl, hst⟩
  | cons a as ih =>
    obtain ⟨hfirst, hstep⟩ := h a List.mem_cons_self s t hst
    obtain ⟨hothers, hlast⟩ := ih (fun b hb => h b (List.mem_cons_of_mem a hb)) hstep
    refine ⟨?_, hlast⟩
    show (step' (f a) t).1 ++ _ = ((step a s).1 ++ _).map g
    rw [hfirst, hothers, List.map_append]

theorem hits_moved {o : Observation} (ho : o.site.method = i) (hst : Stash.Moved i j s t) :
    (m.hits (o.moved j) t).1 = (m.hits o s).1 ∧
      Stash.Moved i j (m.hits o s).2 (m.hits (o.moved j) t).2 := by
  have hsite : o.site = ⟨i, o.site.position⟩ := by rw [← ho]
  have hsink : (o.moved j).sink = o.sink := rfl
  unfold hits
  rw [hsink, hsite]
  split
  · exact ⟨rfl, hst⟩
  · split
    · exact ⟨rfl, hst⟩
    · next kind _ _ half _ =>
      have hturn := inTurn_map (meetHalf ⟨i, o.site.position⟩) (meetHalf ⟨j, o.site.position⟩)
        id id (m.halfHits o kind half)
        (fun h _ s t hst => by simpa using meetHalf_moved h o.site.position hst) hst
      rw [List.map_id, List.map_id] at hturn
      exact hturn
    · exact ⟨rfl, hst⟩

theorem findings_moved (method : Method) {o : Observation} (ho : o.site.method = method.id)
    (hst : Stash.Moved method.id j s t) :
    (m.findings (method.withId j) (o.moved j) t).1 =
        (m.findings method o s).1.map (Finding.moved j) ∧
      Stash.Moved method.id j (m.findings method o s).2
        (m.findings (method.withId j) (o.moved j) t).2 := by
  obtain ⟨hhits, hrest⟩ := m.hits_moved ho hst
  have hfinding (h : Hit) : m.finding (method.withId j) (o.moved j) h =
      (m.finding method o h).moved j := by
    unfold finding
    simp only
    cases h.rule.effectSources <;> rfl
  refine ⟨?_, hrest⟩
  show (m.hits (o.moved j) t).1.map _ = ((m.hits o s).1.map _).map _
  rw [hhits, List.map_map]
  exact List.map_congr_left fun h _ => hfinding h

/-! ### Triggered sinks -/

theorem labelsMet_moved (o : Observation) :
    m.labelsMet (o.moved j) =
      (m.labelsMet o).map fun label => (label.1, { label.2.1 with method := j }, label.2.2) := by
  have hhalf : m.half? (o.moved j) = m.half? o := rfl
  unfold labelsMet
  rw [hhalf]
  cases m.half? o with
  | none => rfl
  | some half =>
    rw [List.map_map]
    rfl

theorem site_of_mem_labelsMet {o : Observation} {label : Int × CallSite × String}
    (h : label ∈ m.labelsMet o) : label.2.1 = o.site := by
  unfold labelsMet at h
  split at h
  · obtain ⟨half, -, rfl⟩ := List.mem_map.1 h
    rfl
  · cases h

theorem contains_metLabels_moved {os : List Observation} (hos : ∀ o ∈ os, o.site.method = i)
    (rule : Int) {site : CallSite} (hsite : site.method = i) (label : String) :
    (m.metLabels (os.map (·.moved j))).contains (rule, { site with method := j }, label) =
      (m.metLabels os).contains (rule, site, label) := by
  have hmem (os : List Observation) (label : Int × CallSite × String) :
      (m.metLabels os).contains label = true ↔ ∃ o ∈ os, label ∈ m.labelsMet o := by
    rw [metLabels_eq]
    show label ∈ OrdSet.ofList (os.flatMap m.labelsMet) ↔ _
    rw [OrdSet.mem_ofList, List.mem_flatMap]
  rw [Bool.eq_iff_iff, hmem, hmem]
  simp only [List.mem_map, exists_exists_and_eq_and, labelsMet_moved, Prod.mk.injEq]
  refine exists_congr fun o => and_congr_right fun ho => ⟨?_, ?_⟩
  · rintro ⟨⟨rule', site', label'⟩, hlabel, rfl, hmoved, rfl⟩
    -- both sites are of the method `i`, so they are the same if their positions are
    have hsame : site' = site := by
      have hmethod : site'.method = i :=
        (congrArg CallSite.method (m.site_of_mem_labelsMet hlabel)).trans (hos o ho)
      cases site'
      cases site
      cases hsite
      cases hmethod
      cases hmoved
      rfl
    exact hsame ▸ hlabel
  · exact fun hlabel => ⟨_, hlabel, rfl, rfl, rfl⟩

theorem triggeredSinks_moved {os : List Observation} (hos : ∀ o ∈ os, o.site.method = i)
    {o : Observation} (ho : o ∈ os) :
    m.triggeredSinks (m.metLabels (os.map (·.moved j))) (o.moved j) =
      m.triggeredSinks (m.metLabels os) o := by
  have hhalf : m.half? (o.moved j) = m.half? o := rfl
  unfold triggeredSinks
  rw [hhalf]
  cases m.half? o with
  | none => rfl
  | some half =>
    have hmet (rule : Int) (label : String) :=
      m.contains_metLabels_moved (j := j) hos rule (hos o ho) label
    exact congrArg (List.flatMap · _) (funext fun rule => by simp only [← hmet]; rfl)

/-- Moved observations have the same findings and trigger the same sinks. -/
theorem check_withId (method : Method) {os : List Observation}
    (hos : ∀ o ∈ os, o.site.method = method.id) :
    (m.check (method.withId j) (os.map (·.moved j)) ∅).1 =
      ⟨(m.check method os ∅).1.findings.map (Finding.moved j), (m.check method os ∅).1.triggered⟩ := by
  have hfindings := (inTurn_map (m.findings method) (m.findings (method.withId j)) (·.moved j)
    (Finding.moved j) os (fun o ho _ _ hst => m.findings_moved method (hos o ho) hst)
    (Stash.moved_clear_empty method.id j)).1
  have htriggered : (os.map (·.moved j)).flatMap
      (m.triggeredSinks (m.metLabels (os.map (·.moved j)))) =
        os.flatMap (m.triggeredSinks (m.metLabels os)) := by
    rw [List.flatMap_map]
    exact List.flatMap_congr fun o ho => m.triggeredSinks_moved hos ho
  exact congrArg₂ Matched.mk hfindings htriggered

end Matcher

namespace Analysis

/-- Under another id a method has a verdict with the same model and the same findings. -/
theorem verdict_withId (a : Analysis) (f : String → Callee) (m : Method) (j : MethodId) :
    (a.verdict f (m.withId j)).model = (a.verdict f m).model ∧
      (a.verdict f (m.withId j)).matched.findings =
        (a.verdict f m).matched.findings.map (Finding.moved j) := by
  have hrun := MethodAnalysis.run_withId m a.heuristics f j
  have hcheck := a.matcher.check_withId (j := j) m (a.sites f m)
  have hmatched : (a.verdict f (m.withId j)).matched =
      ⟨(a.verdict f m).matched.findings.map (Finding.moved j),
        (a.verdict f m).matched.triggered⟩ := by
    refine Eq.trans ?_ hcheck
    show (a.matcher.check (m.withId j) _ ∅).1 = _
    rw [hrun]
  have hmodel : (a.verdict f (m.withId j)).model =
      withTriggered (MethodAnalysis.run ⟨m.withId j, a.heuristics, f⟩).model
        (a.verdict f (m.withId j)).matched := rfl
  rw [hmodel, hmatched, hrun]
  exact ⟨rfl, rfl⟩

/-- The issues of a method do not tell its id. -/
theorem verdict_withId_issues (a : Analysis) (f : String → Callee) (m : Method) (j : MethodId) :
    (a.verdict f (m.withId j)).matched.issues = (a.verdict f m).matched.issues := by
  rw [Matched.issues, (a.verdict_withId f m j).2, List.filterMap_map, Matched.issues]
  refine List.filterMap_congr fun finding _ => ?_
  cases finding <;> rfl

end Analysis

end TaintFlow
