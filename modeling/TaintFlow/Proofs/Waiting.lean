import TaintFlow.Matching
import TaintFlow.Proofs.Containers

/-!
Which halves matching looks at. The halves of one rule at one call are met, found and taken out
without a look at any others (`Stash.fulfill_agree`, `Stash.fulfill_elsewhere`). The observations of
a method are all at its own calls, hence what they come to does not depend on what waits elsewhere,
and nothing elsewhere changes: `Matcher.check_agree` and `Matcher.check_elsewhere`.
-/

namespace TaintFlow

namespace Stash

def AgreeOn (P : Int → CallSite → Prop) (s t : Stash) : Prop :=
  ∀ rule site label, P rule site →
    s.halves.get? (rule, site, label) = t.halves.get? (rule, site, label)

variable {P Q : Int → CallSite → Prop} {s t u : Stash}

theorem AgreeOn.refl (P : Int → CallSite → Prop) (s : Stash) : AgreeOn P s s :=
  fun _ _ _ _ => rfl

theorem AgreeOn.trans (h : AgreeOn P s t) (h' : AgreeOn P t u) : AgreeOn P s u :=
  fun rule site label hP => (h rule site label hP).trans (h' rule site label hP)

theorem AgreeOn.mono (h : AgreeOn P s t) (hQ : ∀ rule site, Q rule site → P rule site) :
    AgreeOn Q s t :=
  fun rule site label hq => h rule site label (hQ rule site hq)

variable {rule : Int} {site : CallSite} (label other : String) (sources : FrameSet)

theorem fulfill_agree (h : AgreeOn P s t) (hP : P rule site) :
    (s.fulfill rule site label other sources).1 = (t.fulfill rule site label other sources).1 ∧
      AgreeOn P (s.fulfill rule site label other sources).2
        (t.fulfill rule site label other sources).2 := by
  have hown := h rule site label hP
  have hother := h rule site other hP
  unfold fulfill
  simp only [hother]
  cases t.halves.get? (rule, site, other) with
  | none =>
    refine ⟨rfl, fun rule' site' label' hP' => ?_⟩
    simp only [OrdMap.get?_update, OrdMap.getD, hown, h rule' site' label' hP']
  | some waiting =>
    constructor
    · simp only [OrdMap.getD, OrdMap.get?_erase, hown]
    · intro rule' site' label' hP'
      simp only [OrdMap.get?_erase, h rule' site' label' hP']

theorem fulfill_elsewhere (hP : ¬ P rule site) :
    AgreeOn P (s.fulfill rule site label other sources).2 s := by
  intro rule' site' label' hP'
  have hne (label : String) : (rule', site', label') ≠ (rule, site, label) := by
    rintro ⟨⟩
    exact hP hP'
  unfold fulfill
  simp only
  split
  · simp only [OrdMap.get?_erase, hne, if_false]
  · simp only [OrdMap.get?_update, hne, if_false]

theorem get?_clear (s : Stash) (method : MethodId) (rule : Int) (site : CallSite)
    (label : String) :
    (s.clear method).halves.get? (rule, site, label) =
      if site.method = method then none else s.halves.get? (rule, site, label) := by
  rw [clear, OrdMap.get?_filter]
  cases s.halves.get? (rule, site, label) <;> by_cases h : site.method = method <;> simp [h]

end Stash

namespace Matcher

section InTurn

variable {α β : Type} {step : α → Stash → List β × Stash} {as : List α}

/-- Steps that yield the same from related stashes, and relate them again, do so in turn. -/
theorem inTurn_agree {R : Stash → Stash → Prop}
    (h : ∀ a ∈ as, ∀ s t, R s t → (step a s).1 = (step a t).1 ∧ R (step a s).2 (step a t).2)
    {s t : Stash} (hst : R s t) :
    (inTurn step as s).1 = (inTurn step as t).1 ∧ R (inTurn step as s).2 (inTurn step as t).2 := by
  induction as generalizing s t with
  | nil => exact ⟨rfl, hst⟩
  | cons a as ih =>
    obtain ⟨hfirst, hstep⟩ := h a List.mem_cons_self s t hst
    obtain ⟨hothers, hlast⟩ := ih (fun b hb => h b (List.mem_cons_of_mem a hb)) hstep
    refine ⟨?_, hlast⟩
    show (step a s).1 ++ _ = (step a t).1 ++ _
    rw [hfirst, hothers]

/-- What every step keeps is kept. -/
theorem inTurn_keeps {R : Stash → Prop} (h : ∀ a ∈ as, ∀ s, R s → R (step a s).2) {s : Stash}
    (hs : R s) : R (inTurn step as s).2 := by
  induction as generalizing s with
  | nil => exact hs
  | cons a as ih =>
    exact ih (fun b hb => h b (List.mem_cons_of_mem a hb)) (h a List.mem_cons_self s hs)

/-- Whatever steps yield in turn is yielded by one of them, with what every step keeps. -/
theorem exists_of_mem_inTurn_keeps {R : Stash → Prop} (h : ∀ a ∈ as, ∀ s, R s → R (step a s).2)
    {s : Stash} (hs : R s) {b : β} (hb : b ∈ (inTurn step as s).1) :
    ∃ a ∈ as, ∃ t, R t ∧ b ∈ (step a t).1 := by
  induction as generalizing s with
  | nil => cases hb
  | cons a as ih =>
    rcases List.mem_append.1 hb with hb | hb
    · exact ⟨a, List.mem_cons_self, s, hs, hb⟩
    · obtain ⟨a', ha', t, ht, hb⟩ := ih (fun b hb => h b (List.mem_cons_of_mem a hb))
        (h a List.mem_cons_self s hs) hb
      exact ⟨a', List.mem_cons_of_mem a ha', t, ht, hb⟩

theorem exists_of_mem_inTurn {b : β} {s : Stash} (hb : b ∈ (inTurn step as s).1) :
    ∃ a ∈ as, ∃ t, b ∈ (step a t).1 := by
  obtain ⟨a, ha, t, -, hb⟩ :=
    exists_of_mem_inTurn_keeps (R := fun _ => True) (fun _ _ _ _ => trivial) trivial hb
  exact ⟨a, ha, t, hb⟩

end InTurn

variable (m : Matcher) {P : Int → CallSite → Prop} {s t : Stash}

def halfHit? (o : Observation) (half : Half) (rule : Rule) : Option HalfHit := do
  let accepted ← rule.labelSources? half.label
  let other ← rule.otherLabel? half.label
  let sources := meeting rule accepted o
  if OrdMap.isEmpty sources then none
  else some { rule, label := half.label, other, sources }

theorem halfHits_eq (o : Observation) (sink : KindId) (half : Half) :
    m.halfHits o sink half = (m.rules.rulesForHalf sink).filterMap (halfHit? o half) := rfl

theorem halfHit?_rule {o : Observation} {half : Half} {r : Rule} {h : HalfHit}
    (hh : halfHit? o half r = some h) : h.rule = r := by
  obtain ⟨accepted, -, hh⟩ := Option.bind_eq_some_iff.1 hh
  obtain ⟨other, -, hh⟩ := Option.bind_eq_some_iff.1 hh
  simp only at hh
  split at hh
  · cases hh
  · cases hh
    rfl

def labelsMet (o : Observation) : List (Int × CallSite × String) :=
  match m.half? o with
  | some (sink, half) => (m.halfHits o sink half).map fun h => (h.rule.code, o.site, h.label)
  | none => []

theorem metLabels_eq (os : List Observation) :
    m.metLabels os = OrdSet.ofList (os.flatMap m.labelsMet) := rfl

theorem rule_of_mem_meetHalf {site : CallSite} {h : HalfHit} {hit : Hit}
    (hhit : hit ∈ (meetHalf site h s).1) : hit.rule = h.rule := by
  unfold meetHalf at hhit
  split at hhit
  · cases hhit
  · rw [List.mem_singleton.1 hhit]

theorem meetHalf_agree {site : CallSite} (h : HalfHit) (hst : s.AgreeOn P t)
    (hP : P h.rule.code site) :
    (meetHalf site h s).1 = (meetHalf site h t).1 ∧
      Stash.AgreeOn P (meetHalf site h s).2 (meetHalf site h t).2 := by
  obtain ⟨hmet, hrest⟩ := Stash.fulfill_agree h.label h.other h.sources hst hP
  unfold meetHalf
  revert hmet hrest
  rcases s.fulfill h.rule.code site h.label h.other h.sources with ⟨_ | ⟨own, other⟩, s'⟩ <;>
    rcases t.fulfill h.rule.code site h.label h.other h.sources with ⟨_ | ⟨own', other'⟩, t'⟩ <;>
    rintro ⟨⟩ hrest
  · exact ⟨rfl, hrest⟩
  · exact ⟨rfl, hrest⟩

theorem meetHalf_elsewhere {site : CallSite} (h : HalfHit) (hP : ¬ P h.rule.code site) :
    Stash.AgreeOn P (meetHalf site h s).2 s := by
  have hrest : Stash.AgreeOn P (s.fulfill h.rule.code site h.label h.other h.sources).2 s :=
    Stash.fulfill_elsewhere h.label h.other h.sources hP
  unfold meetHalf
  revert hrest
  rcases s.fulfill h.rule.code site h.label h.other h.sources with ⟨_ | ⟨own, other⟩, s'⟩
  · exact id
  · exact id

theorem hits_agree {o : Observation} (hst : s.AgreeOn P t) (hP : ∀ rule, P rule o.site) :
    (m.hits o s).1 = (m.hits o t).1 ∧ Stash.AgreeOn P (m.hits o s).2 (m.hits o t).2 := by
  unfold hits
  split
  · exact ⟨rfl, hst⟩
  · split
    · exact ⟨rfl, hst⟩
    · exact inTurn_agree (fun h _ _ _ hst => meetHalf_agree h hst (hP _)) hst
    · exact ⟨rfl, hst⟩

theorem hits_elsewhere {o : Observation} (hP : ∀ rule, ¬ P rule o.site) :
    Stash.AgreeOn P (m.hits o s).2 s := by
  unfold hits
  split
  · exact .refl P s
  · split
    · exact .refl P s
    · exact inTurn_keeps (R := fun t => Stash.AgreeOn P t s)
        (fun h _ t ht => (meetHalf_elsewhere h (hP _)).trans ht) (.refl P s)
    · exact .refl P s

variable {method : Method} {os : List Observation}

/-- What the observations at the calls of a method come to depends on nothing that waits. -/
theorem check_agree (hos : ∀ o ∈ os, o.site.method = method.id) (s t : Stash) :
    (m.check method os s).1 = (m.check method os t).1 ∧
      Stash.AgreeOn (fun _ site => site.method = method.id) (m.check method os s).2
        (m.check method os t).2 := by
  have hclear : Stash.AgreeOn (fun _ site => site.method = method.id) (s.clear method.id)
      (t.clear method.id) := fun rule site label hsite => by
    rw [Stash.get?_clear, Stash.get?_clear, if_pos hsite, if_pos hsite]
  have hstep : ∀ o ∈ os, ∀ s t,
      Stash.AgreeOn (fun _ site => site.method = method.id) s t →
        (m.findings method o s).1 = (m.findings method o t).1 ∧
          Stash.AgreeOn (fun _ site => site.method = method.id) (m.findings method o s).2
            (m.findings method o t).2 := fun o ho s t hst => by
    obtain ⟨hhits, hrest⟩ := m.hits_agree hst fun _ => hos o ho
    exact ⟨congrArg (List.map (m.finding method o)) hhits, hrest⟩
  obtain ⟨hfindings, hrest⟩ := inTurn_agree hstep hclear
  exact ⟨congrArg (Matched.mk · _) hfindings, hrest⟩

/-- What waits at the calls of other methods goes on waiting. -/
theorem check_elsewhere (hos : ∀ o ∈ os, o.site.method = method.id) (s : Stash) :
    Stash.AgreeOn (fun _ site => site.method ≠ method.id) (m.check method os s).2 s := by
  have hclear : Stash.AgreeOn (fun _ site => site.method ≠ method.id) (s.clear method.id) s :=
    fun rule site label hsite => by rw [Stash.get?_clear, if_neg hsite]
  have hstep : ∀ o ∈ os, ∀ t, Stash.AgreeOn (fun _ site => site.method ≠ method.id) t s →
      Stash.AgreeOn (fun _ site => site.method ≠ method.id) (m.findings method o t).2 s :=
    fun o ho t ht => (m.hits_elsewhere fun _ (hne : o.site.method ≠ method.id) =>
      hne (hos o ho)).trans ht
  exact inTurn_keeps hstep hclear

end Matcher

end TaintFlow
