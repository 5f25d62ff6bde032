import TaintFlow.Proofs.RuleIndex
import TaintFlow.Proofs.SeenSinks
import TaintFlow.Proofs.Waiting

/-!
Matching with some of the rules. Every hit is of one rule, and what waits for a rule concerns that
rule only. So with the retained rules an observation has the hits of the retained rules, in the same
order, and the others leave no trace: `Matcher.hits_retain`. A sink triggered for a rule that is not
retained has no hits, so it does not matter whether it is observed (`Matcher.isShown`).
-/

namespace TaintFlow

def Finding.ruleCode : Finding → Int
  | .issue i => i.ruleCode
  | .deferred d => d.issue.ruleCode

namespace Matcher

/-- Steps with the kept results of other steps, where the steps for some items may be left out. -/
theorem inTurn_filter {α β : Type} {step step' : α → Stash → List β × Stash}
    {R : Stash → Stash → Prop} {p : α → Bool} {q : β → Bool} {as : List α}
    (hkept : ∀ a ∈ as, p a = true → ∀ s s', R s s' →
      (step' a s').1 = (step a s).1.filter q ∧ R (step a s).2 (step' a s').2)
    (hdropped : ∀ a ∈ as, p a = false → ∀ s s', R s s' →
      (step a s).1.filter q = [] ∧ R (step a s).2 s') {s s' : Stash} (h : R s s') :
    (inTurn step' (as.filter p) s').1 = (inTurn step as s).1.filter q ∧
      R (inTurn step as s).2 (inTurn step' (as.filter p) s').2 := by
  induction as generalizing s s' with
  | nil => exact ⟨rfl, h⟩
  | cons a as ih =>
    have ih' {s s' : Stash} (h : R s s') :=
      ih (fun b hb => hkept b (List.mem_cons_of_mem a hb))
        (fun b hb => hdropped b (List.mem_cons_of_mem a hb)) h
    have hconcat : (inTurn step (a :: as) s).1.filter q =
        (step a s).1.filter q ++ (inTurn step as (step a s).2).1.filter q :=
      List.filter_append ..
    cases hp : p a with
    | true =>
      obtain ⟨hfirst, hstep⟩ := hkept a List.mem_cons_self hp s s' h
      obtain ⟨hothers, hlast⟩ := ih' hstep
      rw [List.filter_cons_of_pos hp, hconcat, ← hfirst, ← hothers]
      exact ⟨rfl, hlast⟩
    | false =>
      obtain ⟨hfirst, hstep⟩ := hdropped a List.mem_cons_self hp s s' h
      obtain ⟨hothers, hlast⟩ := ih' hstep
      rw [List.filter_cons_of_neg (by simp [hp]), hconcat, hfirst, ← hothers]
      exact ⟨rfl, hlast⟩

variable (m : Matcher) (keep : Rule → Bool)

def retain : Matcher := { m with rules := m.rules.retain keep }

def keeps (code : Int) : Bool := (m.rules.get? code).any keep

def isShown : Label → Bool
  | .kind id => (m.kinds.triggered? id).all fun t => m.keeps keep t.2
  | .argument _ _ => true

def keepsHit (h : Hit) : Bool := m.keeps keep h.rule.code

def keepsHalf (h : HalfHit) : Bool := m.keeps keep h.rule.code

variable {m keep}

/-- A half of a rule that is kept is met in the same way; one of another rule changes only what
waits for that rule. -/
theorem meetHalves_retain {site : CallSite} (hs : List HalfHit) {s s' : Stash}
    (h : Stash.AgreeOn (fun code _ => m.keeps keep code = true) s s') :
    (inTurn (meetHalf site) (hs.filter (m.keepsHalf keep)) s').1 =
        (inTurn (meetHalf site) hs s).1.filter (m.keepsHit keep) ∧
      Stash.AgreeOn (fun code _ => m.keeps keep code = true) (inTurn (meetHalf site) hs s).2
        (inTurn (meetHalf site) (hs.filter (m.keepsHalf keep)) s').2 := by
  refine inTurn_filter (fun half _ hkept s s' hst => ?_) (fun half _ hdropped s s' hst => ?_) h
  · obtain ⟨hhits, hrest⟩ := meetHalf_agree half hst (show m.keeps keep half.rule.code = true from hkept)
    refine ⟨?_, hrest⟩
    rw [← hhits, List.filter_eq_self.2 fun hit hhit => ?_]
    rw [keepsHit, rule_of_mem_meetHalf hhit]
    exact hkept
  · have hnot : ¬ m.keeps keep half.rule.code = true := by
      rw [show m.keeps keep half.rule.code = false from hdropped]
      exact Bool.false_ne_true
    refine ⟨List.filter_eq_nil_iff.2 fun hit hhit => ?_, ?_⟩
    · rw [keepsHit, rule_of_mem_meetHalf hhit]
      exact hnot
    · exact (meetHalf_elsewhere (P := fun code _ => m.keeps keep code = true) half hnot).trans hst

section

variable (hr : m.rules.WellFormed)

include hr

theorem keeps_code {r : Rule} (h : r ∈ m.rules.rules) : m.keeps keep r.code = keep r := by
  rw [keeps, hr.get?_code h]
  rfl

/-! ### Hits -/

theorem directHits_retain (o : Observation) (sink : KindId) :
    (m.retain keep).directHits o sink = (m.directHits o sink).filter (m.keepsHit keep) := by
  unfold directHits
  rw [List.filter_flatMap]
  refine congrArg (List.flatMap · _) (funext fun ⟨kind, f, info⟩ => ?_)
  show ((((m.rules.retain keep).rulesFor kind sink).filter _).map _) = (List.map _ _).filter _
  rw [hr.rulesFor_retain, List.filter_map, List.filter_filter, List.filter_filter]
  refine congrArg (List.map _) (List.filter_congr fun r hmem => ?_)
  have hkeep : m.keeps keep r.code = keep r := keeps_code hr (hr.mem_of_mem_rulesFor hmem)
  rw [Function.comp_apply, keepsHit, hkeep, Bool.and_comm]

theorem triggeredHits_retain (o : Observation) (half : Half) (code : Int) :
    (m.retain keep).triggeredHits o half code =
      (m.triggeredHits o half code).filter (m.keepsHit keep) := by
  have hrules : (m.retain keep).rules = m.rules.retain keep := rfl
  simp only [triggeredHits, hrules, hr.get?_retain]
  cases hget : m.rules.get? code with
  | none => rfl
  | some r =>
    obtain ⟨hmem, rfl⟩ := hr.get?_eq_some_iff.1 hget
    have hkeep : m.keeps keep r.code = keep r := keeps_code hr hmem
    cases hk : keep r <;> rw [hk] at hkeep <;>
      simp [hk, Option.filter, List.filter_map, Function.comp_def, keepsHit, hkeep]

theorem halfHits_retain (o : Observation) (sink : KindId) (half : Half) :
    (m.retain keep).halfHits o sink half =
      (m.halfHits o sink half).filter (m.keepsHalf keep) := by
  rw [halfHits_eq, halfHits_eq]
  show (((m.rules.retain keep).rulesForHalf sink).filterMap _) = _
  rw [hr.rulesForHalf_retain, List.filterMap_filter, List.filter_filterMap]
  refine List.filterMap_congr fun r hmem => ?_
  have hkeep : m.keeps keep r.code = keep r := keeps_code hr (hr.mem_of_mem_rulesForHalf hmem)
  cases hhit : halfHit? o half r with
  | none => simp
  | some h =>
    have hhalf : m.keepsHalf keep h = keep r := by rw [keepsHalf, halfHit?_rule hhit, hkeep]
    simp [Option.filter, hhalf]

/-- With the retained rules an observation has the hits of the retained rules. -/
theorem hits_retain (o : Observation) {s s' : Stash}
    (h : Stash.AgreeOn (fun code _ => m.keeps keep code = true) s s') :
    ((m.retain keep).hits o s').1 = (m.hits o s).1.filter (m.keepsHit keep) ∧
      Stash.AgreeOn (fun code _ => m.keeps keep code = true) (m.hits o s).2
        ((m.retain keep).hits o s').2 := by
  unfold hits
  cases o.sink.kind? with
  | none => exact ⟨rfl, h⟩
  | some sink =>
    have hkinds : (m.retain keep).kinds = m.kinds := rfl
    simp only [hkinds, directHits_retain hr, triggeredHits_retain hr, halfHits_retain hr]
    rcases m.kinds.get? sink with _ | ⟨name⟩ | ⟨half⟩ | ⟨half, code⟩
    · exact ⟨rfl, h⟩
    · exact ⟨rfl, h⟩
    · exact meetHalves_retain (m.halfHits o sink half) h
    · exact ⟨rfl, h⟩

omit hr in
theorem exists_triggered {label : Label} (h : m.isShown keep label = false) :
    ∃ id half code, label = .kind id ∧ m.kinds.get? id = some (.triggered half code) ∧
      m.keeps keep code = false := by
  cases label with
  | argument index path => cases h
  | kind id =>
    cases ht : m.kinds.triggered? id with
    | none => simp [isShown, ht] at h
    | some t =>
      have hget : m.kinds.get? id = some (.triggered t.1 t.2) := by
        unfold KindTable.triggered? at ht
        split at ht
        · next hget =>
          cases ht
          exact hget
        · cases ht
      exact ⟨id, t.1, t.2, rfl, hget, by simpa [isShown, ht] using h⟩

/-- A sink that is not shown has no hits of retained rules, and changes nothing that waits. -/
theorem hits_of_not_isShown {o : Observation} (ho : m.isShown keep o.sink.label = false)
    (s : Stash) : (m.retain keep).hits o s = ([], s) ∧ (m.hits o s).2 = s := by
  obtain ⟨id, half, code, hlabel, hget, hkeep⟩ := exists_triggered ho
  have hkind : o.sink.kind? = some id := by rw [Frame.kind?, hlabel]
  have hnone : (m.rules.retain keep).get? code = none := by
    rw [hr.get?_retain]
    unfold keeps at hkeep
    cases hrule : m.rules.get? code with
    | none => rfl
    | some r =>
      rw [hrule] at hkeep
      simpa using hkeep
  have hhits : (m.retain keep).triggeredHits o half code = [] := by
    have hrules : (m.retain keep).rules = m.rules.retain keep := rfl
    simp only [triggeredHits, hrules, hnone]
  have hkinds : (m.retain keep).kinds = m.kinds := rfl
  simp only [hits, hkind, hkinds, hget, hhits, and_self]

end

/-! ### Findings -/

def keepsFinding (m : Matcher) (keep : Rule → Bool) (f : Finding) : Bool :=
  m.keeps keep f.ruleCode

theorem ruleCode_finding (method : Method) (o : Observation) (h : Hit) :
    (m.finding method o h).ruleCode = h.rule.code := by
  unfold finding
  cases h.rule.effectSources <;> rfl

theorem filter_map_finding (method : Method) (o : Observation) (hs : List Hit) :
    (hs.map (m.finding method o)).filter (m.keepsFinding keep) =
      (hs.filter (m.keepsHit keep)).map (m.finding method o) := by
  rw [List.filter_map]
  refine congrArg (List.map _) (List.filter_congr fun h _ => ?_)
  rw [Function.comp_apply, keepsFinding, ruleCode_finding, keepsHit]

section

variable (hr : m.rules.WellFormed) (method : Method)

include hr

theorem findings_retain (o : Observation) {s s' : Stash}
    (h : Stash.AgreeOn (fun code _ => m.keeps keep code = true) s s') :
    ((m.retain keep).findings method o s').1 =
        (m.findings method o s).1.filter (m.keepsFinding keep) ∧
      Stash.AgreeOn (fun code _ => m.keeps keep code = true) (m.findings method o s).2
        ((m.retain keep).findings method o s').2 := by
  obtain ⟨hhits, hrest⟩ := hits_retain hr o h
  refine ⟨?_, hrest⟩
  show ((m.retain keep).hits o s').1.map (m.finding method o) = ((m.hits o s).1.map _).filter _
  rw [filter_map_finding, hhits]

theorem findings_of_not_isShown {o : Observation} (ho : m.isShown keep o.sink.label = false)
    (s : Stash) :
    (m.retain keep).findings method o s = ([], s) ∧
      (m.findings method o s).1.filter (m.keepsFinding keep) = [] ∧
      (m.findings method o s).2 = s := by
  obtain ⟨hhits, hrest⟩ := hits_of_not_isShown hr ho s
  have hnone : (m.retain keep).findings method o s = ([], s) := by
    unfold findings
    rw [hhits]
    rfl
  refine ⟨hnone, ?_, hrest⟩
  rw [← (findings_retain hr method o (.refl _ s)).1, hnone]

variable {os os' : List Observation}
  (hos : os.filter (Observation.isSeen (m.isShown keep)) =
    os'.filter (Observation.isSeen (m.isShown keep)))

include hos

/-- With the retained rules, and other observations at sinks that are not shown, the findings are
those of the retained rules. -/
theorem check_findings_retain :
    ((m.retain keep).check method os' ∅).1.findings =
      (m.check method os ∅).1.findings.filter (m.keepsFinding keep) := by
  have hfull : (inTurn ((m.retain keep).findings method)
      (os.filter (Observation.isSeen (m.isShown keep))) (Stash.clear ∅ method.id)).1 =
        (inTurn (m.findings method) os (Stash.clear ∅ method.id)).1.filter
          (m.keepsFinding keep) := by
    refine (inTurn_filter (R := Stash.AgreeOn fun code _ => m.keeps keep code = true)
      (fun o _ _ s s' hst => findings_retain hr method o hst) (fun o _ ho s s' hst => ?_) (.refl _ _)).1
    obtain ⟨-, hnone, hrest⟩ := findings_of_not_isShown hr method ho s
    refine ⟨hnone, ?_⟩
    rw [hrest]
    exact hst
  have hretained : (inTurn ((m.retain keep).findings method)
      (os'.filter (Observation.isSeen (m.isShown keep))) (Stash.clear ∅ method.id)).1 =
        (inTurn ((m.retain keep).findings method) os' (Stash.clear ∅ method.id)).1.filter
          fun _ => true := by
    refine (inTurn_filter (R := Eq) (fun o _ _ s s' hst => ?_) (fun o _ ho s s' hst => ?_) rfl).1
    · rw [List.filter_true, hst]
      exact ⟨rfl, rfl⟩
    · rw [(findings_of_not_isShown hr method ho s).1]
      exact ⟨rfl, hst⟩
  rw [List.filter_true, ← hos, hfull] at hretained
  exact hretained.symm

end

/-! ### Triggered sinks -/

theorem half?_of_not_isShown {o : Observation} (ho : m.isShown keep o.sink.label = false) :
    m.half? o = none := by
  obtain ⟨id, half, code, hlabel, hget, -⟩ := exists_triggered ho
  have hkind : o.sink.kind? = some id := by rw [Frame.kind?, hlabel]
  simp only [half?, hkind, Option.bind_some, KindTable.half?, hget, Option.map_none]

/-- The triggered form of a half is a triggered kind of the rule. -/
theorem triggered?_of_findTriggered? {t : KindTable} {sink id : KindId} {code : Int}
    (h : t.findTriggered? sink code = some id) : ∃ half, t.triggered? id = some (half, code) := by
  obtain ⟨half, -, hfind⟩ := Option.bind_eq_some_iff.1 h
  obtain ⟨i, hi, rfl⟩ := Option.map_eq_some_iff.1 hfind
  obtain ⟨hlt, hkind, -⟩ := List.idxOf?_eq_some_iff.1 hi
  have hget : t.get? ⟨i⟩ = some (.triggered half code) := by
    rw [KindTable.get?, List.getElem?_eq_getElem hlt, hkind]
  exact ⟨half, by rw [KindTable.triggered?, hget]⟩

def sinksOfRule (m : Matcher) (met : OrdSet (Int × CallSite × String)) (o : Observation)
    (sink : KindId) (half : Half) (rule : Rule) : List (Port × Frame × FrameInfo) :=
  if (rule.otherLabel? half.label).any fun other => met.contains (rule.code, o.site, other) then
    ((m.kinds.findTriggered? sink rule.code).map fun triggered =>
      o.atParameters (.kind triggered) m.maxTransformLength).getD []
  else []

theorem triggeredSinks_eq (m : Matcher) (met : OrdSet (Int × CallSite × String))
    (o : Observation) :
    m.triggeredSinks met o =
      match m.half? o with
      | some (sink, half) => (m.rules.rulesForHalf sink).flatMap (m.sinksOfRule met o sink half)
      | none => [] := by
  unfold triggeredSinks
  cases m.half? o <;> rfl

/-- The triggered sinks of a rule are shown if and only if the rule is kept. -/
theorem filter_sinksOfRule (met : OrdSet (Int × CallSite × String)) (o : Observation)
    (sink : KindId) (half : Half) (rule : Rule) :
    (m.sinksOfRule met o sink half rule).filter (fun e => m.isShown keep e.2.1.label) =
      if m.keeps keep rule.code then m.sinksOfRule met o sink half rule else [] := by
  unfold sinksOfRule
  split
  · cases hfind : m.kinds.findTriggered? sink rule.code with
    | none => simp
    | some id =>
      obtain ⟨_, htriggered⟩ := triggered?_of_findTriggered? hfind
      have hshown : m.isShown keep (.kind id) = m.keeps keep rule.code := by
        simp [isShown, htriggered]
      simp only [Option.map_some, Option.getD_some, Observation.filter_atParameters, hshown]
  · simp

section

variable (hr : m.rules.WellFormed)

include hr

theorem labelsMet_retain (o : Observation) :
    (m.retain keep).labelsMet o = (m.labelsMet o).filter fun e => m.keeps keep e.1 := by
  have hhalf : (m.retain keep).half? o = m.half? o := rfl
  unfold labelsMet
  rw [hhalf]
  cases m.half? o with
  | none => rfl
  | some e =>
    show ((m.retain keep).halfHits o e.1 e.2).map _ = (List.map _ _).filter _
    rw [halfHits_retain hr, List.filter_map]
    rfl

theorem triggeredSinks_retain {met met' : OrdSet (Int × CallSite × String)}
    (hmet : ∀ code site label, m.keeps keep code = true →
      met'.contains (code, site, label) = met.contains (code, site, label)) (o : Observation) :
    (m.retain keep).triggeredSinks met' o =
      (m.triggeredSinks met o).filter fun e => m.isShown keep e.2.1.label := by
  have hhalf : (m.retain keep).half? o = m.half? o := rfl
  rw [triggeredSinks_eq, triggeredSinks_eq, hhalf]
  cases m.half? o with
  | none => rfl
  | some e =>
    show (((m.rules.retain keep).rulesForHalf e.1).flatMap _) = (List.flatMap _ _).filter _
    rw [hr.rulesForHalf_retain, List.filter_flatMap]
    have hkeeps : ∀ r ∈ m.rules.rulesForHalf e.1, m.keeps keep r.code = keep r := fun r h =>
      keeps_code hr (hr.mem_of_mem_rulesForHalf h)
    refine flatMap_filter_eq (fun r hmem hkeep => ?_) fun r hmem hkeep => ?_
    · rw [filter_sinksOfRule, hkeeps r hmem, hkeep, if_pos rfl]
      have hcontains (other : String) := hmet r.code o.site other ((hkeeps r hmem).trans hkeep)
      unfold sinksOfRule
      simp only [hcontains]
      rfl
    · rw [filter_sinksOfRule, hkeeps r hmem, hkeep]
      rfl

variable {os os' : List Observation}
  (hos : os.filter (Observation.isSeen (m.isShown keep)) =
    os'.filter (Observation.isSeen (m.isShown keep)))

include hos

/-- For a rule that is kept the same labels are met. -/
theorem metLabels_retain {code : Int} (hcode : m.keeps keep code = true) (site : CallSite)
    (label : String) :
    ((m.retain keep).metLabels os').contains (code, site, label) =
      (m.metLabels os).contains (code, site, label) := by
  have hnone (m' : Matcher) (hhalf : m'.half? = m.half?) (o : Observation)
      (ho : Observation.isSeen (m.isShown keep) o = false) : m'.labelsMet o = [] := by
    rw [labelsMet, hhalf, half?_of_not_isShown ho]
  have hlabels : os'.flatMap (m.retain keep).labelsMet =
      (os.flatMap m.labelsMet).filter fun e => m.keeps keep e.1 := by
    rw [← flatMap_filter_of_nil (hnone (m.retain keep) rfl), ← hos,
      ← flatMap_filter_of_nil (hnone m rfl), List.filter_flatMap]
    exact congrArg (List.flatMap · _) (funext fun o => labelsMet_retain hr o)
  rw [Bool.eq_iff_iff]
  show (code, site, label) ∈ (m.retain keep).metLabels os' ↔ (code, site, label) ∈ m.metLabels os
  rw [metLabels_eq, metLabels_eq, OrdSet.mem_ofList, OrdSet.mem_ofList, hlabels, List.mem_filter]
  exact and_iff_left hcode

/-- With the retained rules, the triggered sinks are those that are shown. -/
theorem check_triggered_retain (method : Method) :
    ((m.retain keep).check method os' ∅).1.triggered =
      (m.check method os ∅).1.triggered.filter fun e => m.isShown keep e.2.1.label := by
  have hnone (m' : Matcher) (hhalf : m'.half? = m.half?) (met : OrdSet (Int × CallSite × String))
      (o : Observation) (ho : Observation.isSeen (m.isShown keep) o = false) :
      m'.triggeredSinks met o = [] := by
    rw [triggeredSinks_eq, hhalf, half?_of_not_isShown ho]
  show os'.flatMap ((m.retain keep).triggeredSinks ((m.retain keep).metLabels os')) =
    (os.flatMap (m.triggeredSinks (m.metLabels os))).filter _
  rw [← flatMap_filter_of_nil (hnone (m.retain keep) rfl _), ← hos,
    ← flatMap_filter_of_nil (hnone m rfl _), List.filter_flatMap]
  exact congrArg (List.flatMap · _) (funext fun o => triggeredSinks_retain hr
    (fun code site label hcode => metLabels_retain hr hos hcode site label) o)

end

end Matcher

end TaintFlow
