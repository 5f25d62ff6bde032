import TaintFlow.Proofs.LoadedRules
import TaintFlow.Proofs.Reading
import TaintFlow.Proofs.RetainedMatching

/-!
How the halves of one rule meet at one call. Of the stash only this matters: either nothing waits
for the rule at the call, or the sources of one of its two labels (`Waiting`). A half with the label
that waits joins it; a half with the other label takes it out (`meetNext`), so that a list of halves
leads to some pairs, and leaves the halves since the last pair (`exists_lastPair`). The observations
at the call do the same to the stash, whatever else they meet (`Matcher.hitsInTurn_waits`).
-/

namespace TaintFlow

abbrev Waiting := Option (String × FrameSet)

def Waiting.Among (w : Waiting) (first second : String) : Prop :=
  ∀ own joined, w = some (own, joined) → own = first ∨ own = second

/-- Meets a half, given by its label and sources: it waits with those of its label, or takes out
what waits of the other label. -/
def meetNext (w : Waiting) (label : String) (sources : FrameSet) :
    Option (FrameSet × FrameSet) × Waiting :=
  match w with
  | none => (none, some (label, sources))
  | some (own, joined) =>
    if own = label then (none, some (label, joined.join sources))
    else (some (sources, joined), none)

theorem Waiting.Among.meetNext {w : Waiting} {first second label : String} {sources : FrameSet}
    (h : w.Among first second) (hlabel : label = first ∨ label = second) :
    (meetNext w label sources).2.Among first second := by
  intro own joined hnext
  unfold TaintFlow.meetNext at hnext
  split at hnext
  · cases hnext
    exact hlabel
  · split at hnext
    · cases hnext
      exact hlabel
    · cases hnext

def meetAll {α : Type} (w : Waiting) :
    List (α × String × FrameSet) → List (α × FrameSet × FrameSet) × Waiting
  | [] => ([], w)
  | (tag, label, sources) :: rest =>
    let (pair, w) := meetNext w label sources
    let (pairs, w) := meetAll w rest
    ((pair.map (tag, ·)).toList ++ pairs, w)

/-! ### Pairs of a list of halves -/

section

variable {α : Type} {w : Waiting} {label own : String} {joined : FrameSet} {f : Frame}
  {es all : List (α × String × FrameSet)}

theorem FrameSet.empty_join (s : FrameSet) : FrameSet.join ∅ s = s := by
  refine OrdMap.ext fun f => ?_
  rw [join, OrdMap.get?_union, OrdMap.get?_empty]
  cases s.get? f <;> rfl

theorem FrameSet.join_of_not_has {s t : FrameSet} (h : ∀ f, ¬ t.Has f) : s.join t = s := by
  refine OrdMap.ext fun f => ?_
  have hnone : t.get? f = none := Option.eq_none_iff_forall_ne_some.2 fun info hf => h f ⟨info, hf⟩
  rw [join, OrdMap.get?_union, hnone]
  cases s.get? f <;> rfl

theorem meetAll_same (tag : α) (sources : FrameSet) :
    meetAll (some (label, joined)) ((tag, label, sources) :: es) =
      meetAll (some (label, joined.join sources)) es := by
  simp [meetAll, meetNext]

theorem meetAll_other (hne : own ≠ label) (tag : α) (sources : FrameSet) :
    meetAll (some (own, joined)) ((tag, label, sources) :: es) =
      ((tag, sources, joined) :: (meetAll none es).1, (meetAll none es).2) := by
  simp [meetAll, meetNext, hne]

theorem meetAll_append (w : Waiting) (es es' : List (α × String × FrameSet)) :
    meetAll w (es ++ es') =
      ((meetAll w es).1 ++ (meetAll (meetAll w es).2 es').1, (meetAll (meetAll w es).2 es').2) := by
  induction es generalizing w with
  | nil => rfl
  | cons e es ih => simp only [List.cons_append, meetAll, ih, List.append_assoc]

/-- Halves of one label wait together. -/
theorem meetAll_of_label (h : ∀ e ∈ es, e.2.1 = label) :
    meetAll (some (label, joined)) es =
      ([], some (label, (es.map fun e => e.2.2).foldl FrameSet.join joined)) := by
  induction es generalizing joined with
  | nil => rfl
  | cons e es ih =>
    obtain ⟨tag, label, sources⟩ := e
    obtain ⟨rfl, hrest⟩ := List.forall_mem_cons.1 h
    rw [meetAll_same, ih hrest]
    rfl

/-- There is a pair as soon as a half comes with another label than the one that waits. -/
theorem meetAll_some_eq_nil_iff :
    (meetAll (some (label, joined)) es).1 = [] ↔ ∀ e ∈ es, e.2.1 = label := by
  constructor
  · intro h
    induction es generalizing joined with
    | nil => exact fun _ he => absurd he List.not_mem_nil
    | cons e es ih =>
      obtain ⟨tag, own, sources⟩ := e
      by_cases hlabel : label = own
      · subst hlabel
        rw [meetAll_same] at h
        exact List.forall_mem_cons.2 ⟨rfl, ih h⟩
      · rw [meetAll_other hlabel] at h
        cases h
  · intro h
    rw [meetAll_of_label h]

/-- From nothing, there is a pair if and only if two halves have different labels. -/
theorem meetAll_ne_nil_iff :
    (meetAll none es).1 ≠ [] ↔ ∃ e ∈ es, ∃ e' ∈ es, e.2.1 ≠ e'.2.1 := by
  cases es with
  | nil => simp [meetAll]
  | cons first es =>
    have hpairs : (meetAll none (first :: es)).1 = (meetAll (some first.2) es).1 := rfl
    rw [hpairs, ne_eq, meetAll_some_eq_nil_iff]
    constructor
    · intro h
      push Not at h
      obtain ⟨e, he, hne⟩ := h
      exact ⟨e, List.mem_cons_of_mem first he, first, List.mem_cons_self, hne⟩
    · rintro ⟨e, he, e', he', hne⟩ h
      have hall : ∀ e ∈ first :: es, e.2.1 = first.2.1 := List.forall_mem_cons.2 ⟨rfl, h⟩
      exact hne ((hall e he).trans (hall e' he').symm)

/-- Where all halves have one label, they end up waiting together. -/
theorem meetAll_none_of_label (h : ∀ e ∈ es, e.2.1 = label) (hes : es ≠ []) :
    (meetAll none es).2 = some (label, (es.map fun e => e.2.2).foldl FrameSet.join ∅) := by
  cases es with
  | nil => exact absurd rfl hes
  | cons first es =>
    obtain ⟨tag, label, sources⟩ := first
    obtain ⟨rfl, hrest⟩ := List.forall_mem_cons.1 h
    show (meetAll (some (label, sources)) es).2 = _
    rw [meetAll_of_label hrest, List.map_cons, List.foldl_cons, FrameSet.empty_join]

theorem exists_tag {p : α × FrameSet × FrameSet} (hp : p ∈ (meetAll w es).1) :
    ∃ e ∈ es, e.1 = p.1 := by
  induction es generalizing w with
  | nil => cases hp
  | cons e es ih =>
    rcases List.mem_append.1 hp with hp | hp
    · obtain ⟨_, -, rfl⟩ := Option.map_eq_some_iff.1 (Option.mem_toList.1 hp)
      exact ⟨e, List.mem_cons_self, rfl⟩
    · obtain ⟨e', he', htag⟩ := ih hp
      exact ⟨e', List.mem_cons_of_mem e he', htag⟩

def Waiting.StemsFrom (w : Waiting) (all : List (α × String × FrameSet)) : Prop :=
  ∀ label joined, w = some (label, joined) →
    ∃ e ∈ all, e.2.1 = label ∧ ∀ f, e.2.2.Has f → joined.Has f

/-- In a pair are the sources of two halves with different labels. -/
theorem exists_of_mem_pairs (hw : w.StemsFrom all) (hall : ∀ e ∈ es, e ∈ all)
    {p : α × FrameSet × FrameSet} (hp : p ∈ (meetAll w es).1) :
    ∃ e ∈ all, ∃ e' ∈ all, e'.2.1 ≠ e.2.1 ∧ p.1 = e.1 ∧ p.2.1 = e.2.2 ∧
      ∀ f, e'.2.2.Has f → p.2.2.Has f := by
  induction es generalizing w with
  | nil => cases hp
  | cons e es ih =>
    obtain ⟨he, hrest⟩ := List.forall_mem_cons.1 hall
    obtain ⟨tag, label, sources⟩ := e
    rcases w with _ | ⟨own, joined⟩
    · refine ih (fun label joined h => ?_) hrest hp
      cases h
      exact ⟨_, he, rfl, fun f hf => hf⟩
    · obtain ⟨e', he', hown, hsub⟩ := hw own joined rfl
      by_cases hlabel : own = label
      · subst hlabel
        rw [meetAll_same] at hp
        refine ih (fun label joined h => ?_) hrest hp
        cases h
        exact ⟨e', he', hown, fun f hf => FrameSet.has_join.2 (.inl (hsub f hf))⟩
      · rw [meetAll_other hlabel] at hp
        rcases List.mem_cons.1 hp with rfl | hp
        · exact ⟨_, he, e', he', hown ▸ hlabel, rfl, rfl, hsub⟩
        · exact ih (fun _ _ h => by cases h) hrest hp

/-- The halves up to the last pair leave nothing, and those after it make no pair. -/
theorem exists_lastPair (es : List (α × String × FrameSet)) :
    ∃ before after, es = before ++ after ∧ meetAll none before = ((meetAll none es).1, none) ∧
      meetAll none after = ([], (meetAll none es).2) := by
  induction es using List.reverseRecOn with
  | nil => exact ⟨[], [], rfl, rfl, rfl⟩
  | append_singleton es e ih =>
    obtain ⟨before, after, hes, hbefore, hafter⟩ := ih
    obtain ⟨tag, label, sources⟩ := e
    rw [meetAll_append]
    rcases hw : (meetAll none es).2 with _ | ⟨own, joined⟩
    · refine ⟨before, after ++ [(tag, label, sources)], by rw [hes, List.append_assoc], ?_, ?_⟩
      · rw [hbefore]
        simp [meetAll, meetNext]
      · rw [meetAll_append, hafter, hw, List.nil_append]
        rfl
    · by_cases hlabel : own = label
      · subst hlabel
        refine ⟨before, after ++ [(tag, own, sources)], by rw [hes, List.append_assoc], ?_, ?_⟩
        · rw [hbefore, meetAll_same]
          simp [meetAll]
        · rw [meetAll_append, hafter, hw, List.nil_append, meetAll_same]
          rfl
      · -- the new half makes the last pair
        refine ⟨es ++ [(tag, label, sources)], [], (List.append_nil _).symm, ?_, ?_⟩
        · rw [meetAll_append, hw, meetAll_other hlabel]
          rfl
        · rw [meetAll_other hlabel]
          rfl

def Waiting.Has (w : Waiting) (f : Frame) : Prop :=
  ∃ label joined, w = some (label, joined) ∧ joined.Has f

/-- Every source is in a pair or goes on waiting. -/
theorem mem_pairs_or_waits (w : Waiting) (es : List (α × String × FrameSet)) (f : Frame) :
    (∃ p ∈ (meetAll w es).1, p.2.1.Has f ∨ p.2.2.Has f) ∨ (meetAll w es).2.Has f ↔
      w.Has f ∨ ∃ e ∈ es, e.2.2.Has f := by
  induction es generalizing w with
  | nil => simp [meetAll]
  | cons e es ih =>
    obtain ⟨tag, label, sources⟩ := e
    rcases w with _ | ⟨own, joined⟩
    · refine (ih (some (label, sources))).trans ?_
      simp [Waiting.Has]
    · by_cases hlabel : own = label
      · subst hlabel
        rw [meetAll_same, ih]
        simp [Waiting.Has, FrameSet.has_join, or_assoc]
      · rw [meetAll_other hlabel]
        simp only [List.mem_cons, exists_eq_or_imp, or_assoc, ih]
        simp [Waiting.Has, or_left_comm]

end

/-! ### Halves in the stash -/

namespace Stash

def Waits (s : Stash) (rule : Int) (site : CallSite) (w : Waiting) : Prop :=
  ∀ label, s.halves.get? (rule, site, label) =
    w.bind fun (own, joined) => if own = label then some joined else none

variable {s t : Stash} {rule : Int} {site : CallSite} {w : Waiting} {label other : String}

theorem Waits.congr (h : s.Waits rule site w)
    (hst : AgreeOn (fun code site' => code = rule ∧ site' = site) t s) : t.Waits rule site w :=
  fun label => (hst rule site label ⟨rfl, rfl⟩).trans (h label)

theorem waits_clear (s : Stash) (rule : Int) (site : CallSite) :
    (s.clear site.method).Waits rule site none := fun label => by
  rw [get?_clear, if_pos rfl]
  rfl

/-- A half is met as what waits for its rule at its call says. -/
theorem Waits.fulfill (h : s.Waits rule site w) (hne : label ≠ other)
    (hw : ∀ own joined, w = some (own, joined) → own = label ∨ own = other) (sources : FrameSet) :
    (s.fulfill rule site label other sources).1 = (meetNext w label sources).1 ∧
      (s.fulfill rule site label other sources).2.Waits rule site (meetNext w label sources).2 := by
  unfold Stash.fulfill
  simp only [h other]
  rcases w with _ | ⟨own, joined⟩
  · refine ⟨rfl, fun label' => ?_⟩
    simp [OrdMap.get?_update, OrdMap.getD, h label, h label', FrameSet.empty_join, meetNext,
      eq_comm]
  · rcases hw own joined rfl with rfl | rfl
    · have hown : s.halves.getD (rule, site, own) ∅ = joined := by simp [OrdMap.getD, h own]
      simp only [meetNext, Option.bind_some, if_neg hne]
      refine ⟨rfl, fun label' => ?_⟩
      by_cases hlabel : label' = own
      · simp [OrdMap.get?_update, hown, hlabel]
      · simp [OrdMap.get?_update, h label', hlabel, Ne.symm hlabel]
    · have hown : (s.halves.erase (rule, site, own)).getD (rule, site, label) ∅ = ∅ := by
        simp [OrdMap.getD, OrdMap.get?_erase, hne, h label, hne.symm]
      simp only [meetNext, Option.bind_some, if_true, if_neg hne.symm, hown, FrameSet.empty_join,
        true_and]
      intro label'
      by_cases hlabel : label' = own
      · simp [OrdMap.get?_erase, hlabel]
      · simp [OrdMap.get?_erase, h label', hlabel, Ne.symm hlabel]

end Stash

namespace Matcher

variable (m : Matcher) {r : Rule} {site : CallSite} {s t : Stash} {w : Waiting}

/-! ### Halves of one rule -/

def halfOf? (r : Rule) (o : Observation) : Option HalfHit :=
  (m.half? o).bind fun (sink, half) => if sink ∈ RuleSet.halfKeys r then halfHit? o half r else none

def halvesAt (r : Rule) (site : CallSite) (os : List Observation) :
    List (Observation × String × FrameSet) :=
  os.filterMap fun o =>
    if o.site = site then (m.halfOf? r o).map fun h => (o, h.label, h.sources) else none

def only (r : Rule) : Matcher := m.retain (·.code == r.code)

theorem filter_eq_singleton {α : Type} {p : α → Bool} {as : List α} {a : α} (hnodup : as.Nodup)
    (ha : a ∈ as) (h : ∀ b ∈ as, p b = true ↔ b = a) : as.filter p = [a] := by
  apply List.perm_singleton.1
  apply (List.perm_ext_iff_of_nodup (hnodup.filter p) (List.nodup_singleton a)).2
  intro b
  rw [List.mem_filter, List.mem_singleton]
  exact ⟨fun ⟨hb, hp⟩ => (h b hb).1 hp, fun hb => ⟨hb ▸ ha, (h b (hb ▸ ha)).2 hb⟩⟩

section

variable {m} (hr : m.rules.WellFormed) (hmem : r ∈ m.rules.rules)

include hr hmem

theorem eq_of_code {r' : Rule} (h : r' ∈ m.rules.rules) (hcode : r'.code = r.code) : r' = r :=
  List.inj_on_of_nodup_map hr.codes h hmem hcode

theorem keeps_only_iff {code : Int} : m.keeps (·.code == r.code) code = true ↔ code = r.code := by
  unfold keeps
  constructor
  · intro h
    cases hget : m.rules.get? code with
    | none =>
      rw [hget] at h
      cases h
    | some r' =>
      rw [hget] at h
      exact (hr.get?_eq_some_iff.1 hget).2.symm.trans (beq_iff_eq.1 h)
  · rintro rfl
    rw [hr.get?_code hmem]
    simp

theorem halfHits_only (o : Observation) (sink : KindId) (half : Half) :
    (m.only r).halfHits o sink half =
      (if sink ∈ RuleSet.halfKeys r then halfHit? o half r else none).toList := by
  have hrules : m.rules.rules.filter (·.code == r.code) = [r] := by
    apply filter_eq_singleton hr.codes.of_map hmem
    intro r' hr'
    rw [beq_iff_eq]
    exact ⟨eq_of_code hr hmem hr', congrArg Rule.code⟩
  have hnodup : (RuleSet.halfKeys r).Nodup := by
    unfold RuleSet.halfKeys
    split
    · exact List.nodup_nil
    · exact OrdMap.nodup_keys _
  have hfor : (m.only r).rules.rulesForHalf sink =
      if sink ∈ RuleSet.halfKeys r then [r] else [] := by
    show (m.rules.retain _).rulesForHalf sink = _
    rw [RuleSet.retain_eq, hrules, RuleSet.rulesForHalf_ofRules, RuleSet.under,
      List.flatMap_singleton]
    split
    · next hsink => rw [filter_eq_singleton hnodup hsink (by simp), List.map_singleton]
    · next hsink =>
      have hnone : (RuleSet.halfKeys r).filter (· = sink) = [] := by
        simp only [List.filter_eq_nil_iff, decide_eq_true_eq]
        exact fun id hid heq => hsink (heq ▸ hid)
      rw [hnone, List.map_nil]
  rw [halfHits_eq, hfor]
  split
  · cases h : halfHit? o half r <;> simp [h]
  · rfl

/-- What an observation hits of a rule, and what waits for it, is as with the rule alone. -/
theorem hits_only (o : Observation) (s : Stash) :
    ((m.only r).hits o s).1 = (m.hits o s).1.filter (fun h => h.rule.code == r.code) ∧
      Stash.AgreeOn (fun code _ => code = r.code) (m.hits o s).2 ((m.only r).hits o s).2 := by
  obtain ⟨hhits, hrest⟩ := hits_retain hr o
    (Stash.AgreeOn.refl (fun code _ => m.keeps (·.code == r.code) code = true) s)
  refine ⟨hhits.trans (List.filter_congr fun h _ => ?_), fun code site label hcode => ?_⟩
  · rw [keepsHit, Bool.eq_iff_iff, keeps_only_iff hr hmem, beq_iff_eq]
  · exact hrest code site label ((keeps_only_iff hr hmem).2 hcode)

end

def pairHit (r : Rule) (pair : FrameSet × FrameSet) : Hit :=
  ⟨r, (pair.1.kinds ++ pair.2.kinds).map fun (kind, _, info) => (kind, info)⟩

theorem meetHalf_eq (site : CallSite) (h : HalfHit) (s : Stash) :
    meetHalf site h s =
      (((s.fulfill h.rule.code site h.label h.other h.sources).1.map (pairHit h.rule)).toList,
        (s.fulfill h.rule.code site h.label h.other h.sources).2) := by
  unfold meetHalf
  rcases s.fulfill h.rule.code site h.label h.other h.sources with ⟨_ | ⟨own, other⟩, t⟩ <;> rfl

theorem half?_eq_some_iff {o : Observation} {sink : KindId} {half : Half} :
    m.half? o = some (sink, half) ↔
      o.sink.kind? = some sink ∧ m.kinds.get? sink = some (.half half) := by
  have htable : m.kinds.half? sink = some half ↔ m.kinds.get? sink = some (.half half) := by
    unfold KindTable.half?
    rcases m.kinds.get? sink with _ | ⟨_⟩ | ⟨_⟩ | ⟨_⟩ <;> simp
  rw [← htable]
  unfold half?
  cases o.sink.kind? with
  | none => simp
  | some id =>
    simp only [Option.bind_some, Option.map_eq_some_iff, Prod.mk.injEq, Option.some.injEq]
    constructor
    · rintro ⟨_, hhalf, rfl, rfl⟩
      exact ⟨rfl, hhalf⟩
    · rintro ⟨rfl, hhalf⟩
      exact ⟨half, hhalf, rfl, rfl⟩

/-- A sink that is no half leaves the stash as it is, and has the same hits with any. -/
theorem hits_of_half?_eq_none {o : Observation} (h : m.half? o = none) (s : Stash) :
    m.hits o s = ((m.hits o ∅).1, s) := by
  unfold hits
  split
  · rfl
  · next sink hsink =>
    split
    · rfl
    · next half hhalf =>
      rw [(half?_eq_some_iff m).2 ⟨hsink, hhalf⟩] at h
      cases h
    · rfl

theorem hits_of_half?_eq_some {o : Observation} {sink : KindId} {half : Half}
    (h : m.half? o = some (sink, half)) (s : Stash) :
    m.hits o s = inTurn (meetHalf o.site) (m.halfHits o sink half) s := by
  obtain ⟨hsink, hhalf⟩ := (half?_eq_some_iff m).1 h
  simp only [hits, hsink, hhalf]

def isPairAt (r : Rule) (site : CallSite) (o : Observation) (h : Hit) : Bool :=
  o.site = site && (m.half? o).isSome && h.rule.code == r.code

/-- At its call, a half does for the rule what it does with the rule alone. -/
theorem hits_alone (hr : m.rules.WellFormed) (hmem : r ∈ m.rules.rules) {o : Observation}
    (hhalf : (m.half? o).isSome) (s : Stash) :
    (m.hits o s).1.filter (m.isPairAt r o.site o) =
        (inTurn (meetHalf o.site) (m.halfOf? r o).toList s).1 ∧
      Stash.AgreeOn (fun code site => code = r.code ∧ site = o.site) (m.hits o s).2
        (inTurn (meetHalf o.site) (m.halfOf? r o).toList s).2 := by
  obtain ⟨⟨sink, half⟩, hsome⟩ := Option.isSome_iff_exists.1 hhalf
  obtain ⟨hhits, hrest⟩ := hits_only hr hmem o s
  have honly : (m.only r).hits o s = inTurn (meetHalf o.site) (m.halfOf? r o).toList s := by
    rw [hits_of_half?_eq_some (m.only r) hsome, halfHits_only hr hmem, halfOf?, hsome]
    rfl
  rw [← honly, hhits]
  refine ⟨List.filter_congr fun h _ => ?_, hrest.mono fun _ _ h => h.1⟩
  simp [isPairAt, hhalf]

section

variable {sources : OrdMap String (OrdSet KindId)} {sinks : OrdSet KindId} {first second : String}
  (hflow : r.flow = .paired sources sinks) (hkeys : sources.keys = [first, second])

include hflow hkeys

/-- A half of a rule has one of its labels, and the other one is that of its counterpart. -/
theorem labels_of_halfOf? {o : Observation} {h : HalfHit} (hh : m.halfOf? r o = some h) :
    h.rule = r ∧ (h.label = first ∧ h.other = second ∨ h.label = second ∧ h.other = first) := by
  obtain ⟨⟨sink, half⟩, -, hh⟩ := Option.bind_eq_some_iff.1 hh
  dsimp only at hh
  split at hh
  · obtain ⟨accepted, haccepted, hh⟩ := Option.bind_eq_some_iff.1 hh
    obtain ⟨other, hother, hh⟩ := Option.bind_eq_some_iff.1 hh
    simp only at hh
    split at hh
    · cases hh
    · cases hh
      refine ⟨rfl, ?_⟩
      obtain ⟨hsecond, hfirst⟩ := Rule.otherLabel?_of_keys hflow hkeys
      rcases Rule.label_of_keys hflow hkeys haccepted with hlabel | hlabel
      · rw [hlabel, hsecond] at hother
        exact .inl ⟨hlabel, (Option.some.inj hother).symm⟩
      · rw [hlabel, hfirst] at hother
        exact .inr ⟨hlabel, (Option.some.inj hother).symm⟩
  · cases hh

/-- A half of the rule is met as what waits says. -/
theorem meetHalf_waits (hs : s.Waits r.code site w) (hw : w.Among first second) {o : Observation}
    {h : HalfHit} (hh : m.halfOf? r o = some h) :
    (meetHalf site h s).1 = ((meetNext w h.label h.sources).1.map (pairHit r)).toList ∧
      (meetHalf site h s).2.Waits r.code site (meetNext w h.label h.sources).2 ∧
      (meetNext w h.label h.sources).2.Among first second := by
  obtain ⟨hrule, hlabels⟩ := m.labels_of_halfOf? hflow hkeys hh
  obtain ⟨hne, hown, hlabel⟩ : h.label ≠ h.other ∧
      (∀ own joined, w = some (own, joined) → own = h.label ∨ own = h.other) ∧
      (h.label = first ∨ h.label = second) := by
    have hne : first ≠ second := Rule.ne_of_keys hkeys
    rcases hlabels with ⟨hlabel, hother⟩ | ⟨hlabel, hother⟩ <;> rw [hlabel, hother]
    · exact ⟨hne, hw, .inl rfl⟩
    · exact ⟨hne.symm, fun own joined h => (hw own joined h).symm, .inr rfl⟩
  obtain ⟨hmet, hwaits⟩ := hs.fulfill hne hown h.sources
  rw [meetHalf_eq, hrule, hmet]
  exact ⟨rfl, hwaits, hw.meetNext hlabel⟩

variable (hr : m.rules.WellFormed) (hmem : r ∈ m.rules.rules)

include hr hmem

/-- One observation, with any hits of other rules, does to what waits for a rule at a call what the
half does that it meets there. -/
theorem hits_waits (hs : s.Waits r.code site w) (hw : w.Among first second) (o : Observation) :
    (m.hits o s).1.filter (m.isPairAt r site o) =
        (meetAll w (m.halvesAt r site [o])).1.map (fun p => pairHit r p.2) ∧
      (m.hits o s).2.Waits r.code site (meetAll w (m.halvesAt r site [o])).2 ∧
      (meetAll w (m.halvesAt r site [o])).2.Among first second := by
  by_cases hsite : o.site = site
  · subst hsite
    cases hhalf : m.half? o with
    | none =>
      have hnone : m.halvesAt r o.site [o] = [] := by simp [halvesAt, halfOf?, hhalf]
      rw [hnone, m.hits_of_half?_eq_none hhalf]
      exact ⟨by simp [isPairAt, hhalf, meetAll], hs, hw⟩
    | some e =>
      obtain ⟨hpairs, hrest⟩ := m.hits_alone hr hmem (by rw [hhalf]; rfl) s
      rw [hpairs]
      cases hhit : m.halfOf? r o with
      | none =>
        have hnone : m.halvesAt r o.site [o] = [] := by simp [halvesAt, hhit]
        rw [hhit] at hrest
        rw [hnone]
        exact ⟨rfl, hs.congr hrest, hw⟩
      | some h =>
        have hone : m.halvesAt r o.site [o] = [(o, h.label, h.sources)] := by
          simp [halvesAt, hhit]
        obtain ⟨hmet, hwaits, hamong⟩ := m.meetHalf_waits hflow hkeys hs hw hhit
        rw [hhit] at hrest
        rw [hone]
        refine ⟨?_, hwaits.congr hrest, hamong⟩
        show (meetHalf o.site h s).1 ++ [] = (((meetNext w h.label h.sources).1.map (o, ·)).toList ++
          []).map fun p : Observation × FrameSet × FrameSet => pairHit r p.2
        rw [hmet]
        cases (meetNext w h.label h.sources).1 <;> rfl
  · have hnone : m.halvesAt r site [o] = [] := by simp [halvesAt, hsite]
    have helsewhere : Stash.AgreeOn (fun code site' => code = r.code ∧ site' = site)
        (m.hits o s).2 s := m.hits_elsewhere fun _ h => hsite h.2
    rw [hnone]
    exact ⟨by simp [isPairAt, hsite, meetAll], hs.congr helsewhere, hw⟩

end

/-! ### Hits of all observations -/

def hitsInTurn (os : List Observation) (s : Stash) : List (Observation × Hit) × Stash :=
  inTurn (fun o s => ((m.hits o s).1.map (o, ·), (m.hits o s).2)) os s

theorem inTurn_findings (method : Method) (os : List Observation) (s : Stash) :
    inTurn (m.findings method) os s =
      ((m.hitsInTurn os s).1.map (fun e => m.finding method e.1 e.2), (m.hitsInTurn os s).2) := by
  induction os generalizing s with
  | nil => rfl
  | cons o os ih =>
    have hmap : ((m.hits o s).1.map (o, ·)).map (fun e => m.finding method e.1 e.2) =
        (m.hits o s).1.map (m.finding method o) := List.map_map
    have hrest := ih (m.hits o s).2
    show ((m.hits o s).1.map (m.finding method o) ++
        (inTurn (m.findings method) os (m.hits o s).2).1,
      (inTurn (m.findings method) os (m.hits o s).2).2) =
        (((m.hits o s).1.map (o, ·) ++ (m.hitsInTurn os (m.hits o s).2).1).map _, _)
    rw [hrest, List.map_append, hmap]
    rfl

/-- The hits of a rule at a call, of two halves that met there, are the pairs of its halves. -/
theorem hitsInTurn_waits {sources : OrdMap String (OrdSet KindId)} {sinks : OrdSet KindId}
    {first second : String} (hflow : r.flow = .paired sources sinks)
    (hkeys : sources.keys = [first, second]) (hr : m.rules.WellFormed) (hmem : r ∈ m.rules.rules)
    (os : List Observation) (hs : s.Waits r.code site w) (hw : w.Among first second) :
    (m.hitsInTurn os s).1.filter (fun e => m.isPairAt r site e.1 e.2) =
        (meetAll w (m.halvesAt r site os)).1.map (fun p => (p.1, pairHit r p.2)) ∧
      (m.hitsInTurn os s).2.Waits r.code site (meetAll w (m.halvesAt r site os)).2 := by
  induction os generalizing s w with
  | nil => exact ⟨rfl, hs⟩
  | cons o os ih =>
    obtain ⟨hfirst, hs', hw'⟩ := m.hits_waits hflow hkeys hr hmem hs hw o
    obtain ⟨hothers, hlast⟩ := ih hs' hw'
    have hhalves : m.halvesAt r site (o :: os) = m.halvesAt r site [o] ++ m.halvesAt r site os :=
      List.filterMap_append (l := [o])
    have htag : ∀ p ∈ (meetAll w (m.halvesAt r site [o])).1, p.1 = o := fun p hp => by
      obtain ⟨e, he, htag⟩ := exists_tag hp
      obtain ⟨o', ho', he⟩ := List.mem_filterMap.1 he
      split at he
      · obtain ⟨_, -, rfl⟩ := Option.map_eq_some_iff.1 he
        exact htag.symm.trans (List.mem_singleton.1 ho')
      · cases he
    rw [hhalves, meetAll_append]
    refine ⟨?_, hlast⟩
    show ((m.hits o s).1.map (o, ·) ++ (m.hitsInTurn os (m.hits o s).2).1).filter _ = _
    rw [List.filter_append, List.map_append, hothers, List.filter_map]
    congr 1
    show ((m.hits o s).1.filter (m.isPairAt r site o)).map (o, ·) = _
    rw [hfirst, List.map_map]
    exact List.map_congr_left fun p hp => by rw [htag p hp, Function.comp_apply]

end Matcher

end TaintFlow
