import TaintFlow.Proofs.PairedFlows

/-!
What the order of the observations does to paired flows. Two halves that meet leave the stash, hence
a source that is observed later has no part in their issue. If another half comes, it is named by a
later issue, and if none comes, it waits. So observations in another order find paired flows at the
same calls, but their issues may name other kinds; the kinds that are named or wait are the same
(`Matcher.check_reordered`).
-/

namespace TaintFlow

def Finding.reported : Finding → Issue
  | .issue i => i
  | .deferred d => d.issue

def KindTable.Names (t : KindTable) (P : Frame → Prop) (name : String) : Prop :=
  ∃ f kind, P f ∧ f.kind? = some kind ∧ t.name kind = name

namespace KindTable

variable {t : KindTable} {P Q : Frame → Prop} {name : String}

theorem names_congr (h : ∀ f, P f ↔ Q f) : t.Names P name ↔ t.Names Q name := by
  unfold Names
  simp only [h]

theorem names_or : t.Names (fun f => P f ∨ Q f) name ↔ t.Names P name ∨ t.Names Q name := by
  constructor
  · rintro ⟨f, kind, hf | hf, h⟩
    · exact .inl ⟨f, kind, hf, h⟩
    · exact .inr ⟨f, kind, hf, h⟩
  · rintro (⟨f, kind, hf, h⟩ | ⟨f, kind, hf, h⟩)
    · exact ⟨f, kind, .inl hf, h⟩
    · exact ⟨f, kind, .inr hf, h⟩

end KindTable

namespace Matcher

variable (m : Matcher) (method : Method) (os : List Observation) (s : Stash) (r : Rule)
  (position : Nat) (name : String)

/-- The halves of a rule meet at a call. -/
def Fires : Prop :=
  ∃ e ∈ (m.hitsInTurn os (s.clear method.id)).1,
    m.isPairAt r ⟨method.id, position⟩ e.1 e.2 = true

instance : Decidable (m.Fires method os s r position) :=
  inferInstanceAs (Decidable (∃ e ∈ (m.hitsInTurn os (s.clear method.id)).1,
    m.isPairAt r ⟨method.id, position⟩ e.1 e.2 = true))

/-- A kind is named by an issue, deferred or not, that a check has for a rule at a call. -/
def Reports : Prop :=
  ∃ f ∈ (m.check method os s).1.findings,
    f.ruleCode = r.code ∧ f.reported.position = position ∧ name ∈ f.reported.sourceKinds

instance : Decidable (m.Reports method os s r position name) :=
  inferInstanceAs (Decidable (∃ f ∈ (m.check method os s).1.findings,
    f.ruleCode = r.code ∧ f.reported.position = position ∧ name ∈ f.reported.sourceKinds))

/-- After a check, a source with a kind waits for a rule at a call. -/
def LeavesWaiting : Prop :=
  m.kinds.Names
    (fun f => ∃ label frames, (m.check method os s).2.halves.get?
      (r.code, ⟨method.id, position⟩, label) = some frames ∧ frames.Has f)
    name

def MatchesKind : Prop :=
  m.kinds.Names
    (fun f => ∃ label, ∃ o ∈ os, o.site = ⟨method.id, position⟩ ∧ m.Matches r label o f) name

def NamesApart : Prop :=
  ∃ o ∈ os, o.site = ⟨method.id, position⟩ ∧ m.half? o = none ∧ ∃ h ∈ (m.hits o ∅).1,
    h.rule.code = r.code ∧ ∃ source ∈ h.sources, m.kinds.name source.1 = name

variable {m method os s r position name} {os' : List Observation}

theorem MatchesKind.perm (h : os.Perm os') :
    m.MatchesKind method os r position name ↔ m.MatchesKind method os' r position name := by
  simp only [MatchesKind, h.mem_iff]

theorem NamesApart.perm (h : os.Perm os') :
    m.NamesApart method os r position name ↔ m.NamesApart method os' r position name := by
  simp only [NamesApart, h.mem_iff]

theorem Met.perm {label : String} {site : CallSite} (h : os.Perm os') :
    m.Met r label site os ↔ m.Met r label site os' := by
  simp only [Met, h.mem_iff]

/-- Sinks that are no halves have their hits, whatever waits. -/
theorem mem_hitsInTurn_iff {o : Observation} (ho : m.half? o = none) {h : Hit} :
    (o, h) ∈ (m.hitsInTurn os s).1 ↔ o ∈ os ∧ h ∈ (m.hits o ∅).1 := by
  constructor
  · intro hmem
    obtain ⟨o', ho', t, hmem⟩ := exists_of_mem_inTurn hmem
    obtain ⟨h', hh', heq⟩ := List.mem_map.1 hmem
    cases heq
    rw [m.hits_of_half?_eq_none ho] at hh'
    exact ⟨ho', hh'⟩
  · rintro ⟨hmem, hh⟩
    induction os generalizing s with
    | nil => cases hmem
    | cons o' os ih =>
      apply List.mem_append.2
      rcases List.mem_cons.1 hmem with rfl | hmem
      · refine .inl (List.mem_map_of_mem ?_)
        rw [m.hits_of_half?_eq_none ho]
        exact hh
      · exact .inr (ih hmem)

theorem reported_finding (method : Method) (o : Observation) (h : Hit) :
    (m.finding method o h).reported = m.issue method o h := by
  unfold finding
  cases h.rule.effectSources <;> rfl

theorem reports_iff_hits :
    m.Reports method os s r position name ↔
      ∃ e ∈ (m.hitsInTurn os (s.clear method.id)).1, e.2.rule.code = r.code ∧
        e.1.site.position = position ∧ name ∈ (m.issue method e.1 e.2).sourceKinds := by
  have hfindings : (m.check method os s).1.findings =
      (m.hitsInTurn os (s.clear method.id)).1.map (fun e => m.finding method e.1 e.2) :=
    congrArg Prod.fst (m.inTurn_findings method os (s.clear method.id))
  unfold Reports
  rw [hfindings]
  simp only [List.mem_map, exists_exists_and_eq_and, ruleCode_finding, reported_finding]
  rfl

section

variable (hr : m.rules.Loaded) (hmem : r ∈ m.rules.rules)
  {sources : OrdMap String (OrdSet KindId)} {sinks : OrdSet KindId} {first second : String}
  (hflow : r.flow = .paired sources sinks) (hkeys : sources.keys = [first, second])

include hr hmem hflow hkeys

theorem leavesWaiting_iff :
    m.LeavesWaiting method os s r position name ↔
      m.kinds.Names (meetAll none (m.halvesAt r ⟨method.id, position⟩ os)).2.Has name := by
  apply KindTable.names_congr
  intro f
  have hwaits : (m.check method os s).2.Waits r.code ⟨method.id, position⟩ _ :=
    check_waits hr hmem hflow hkeys s position
  unfold Stash.Waits at hwaits
  simp only [hwaits]
  rcases (meetAll none (m.halvesAt r ⟨method.id, position⟩ os)).2 with _ | ⟨own, joined⟩
  · simp [Waiting.Has]
  · simp [Waiting.Has]

omit hr hmem in
theorem matchesKind_iff :
    m.MatchesKind method os r position name ↔
      m.kinds.Names (fun f => ∃ e ∈ m.halvesAt r ⟨method.id, position⟩ os, e.2.2.Has f) name := by
  apply KindTable.names_congr
  intro f
  simp only [← exists_half_iff hflow hkeys]
  constructor
  · rintro ⟨_, e, he, -, hf⟩
    exact ⟨e, he, hf⟩
  · rintro ⟨e, he, hf⟩
    exact ⟨e.2.1, e, he, rfl, hf⟩

variable (hos : ∀ o ∈ os, o.site.method = method.id)

include hos

/-- The kinds that issues name are those of pairs, and those of the hits of other sinks. -/
theorem reports_iff :
    m.Reports method os s r position name ↔
      m.kinds.Names (fun f => ∃ p ∈ (meetAll none (m.halvesAt r ⟨method.id, position⟩ os)).1,
        p.2.1.Has f ∨ p.2.2.Has f) name ∨ m.NamesApart method os r position name := by
  have hpairs := mem_pairs_iff hr hmem hflow hkeys hos s ⟨method.id, position⟩
  rw [reports_iff_hits]
  constructor
  · rintro ⟨⟨o, h⟩, he, hcode, hposition, hname⟩
    have hsite : o.site = ⟨method.id, position⟩ := by
      rw [← hos o (mem_of_mem_hitsInTurn he), ← hposition]
    cases hhalf : m.half? o with
    | none =>
      obtain ⟨ho, hh⟩ := (mem_hitsInTurn_iff hhalf).1 he
      obtain ⟨source, hsource, rfl⟩ := List.mem_map.1 (OrdSet.mem_ofList.1 hname)
      exact .inr ⟨o, ho, hsite, hhalf, h, hh, hcode, source, hsource, rfl⟩
    | some half =>
      have hat : m.isPairAt r ⟨method.id, position⟩ o h = true := by
        simpa [isPairAt, hsite, hhalf] using hcode
      obtain ⟨p, hp, heq⟩ := (hpairs (o, h)).1 ⟨he, hat⟩
      cases heq
      obtain ⟨f, kind, hf, hkind⟩ := mem_sourceKinds_pairHit.1 hname
      exact .inl ⟨f, kind, ⟨p, hp, hf⟩, hkind⟩
  · rintro (⟨f, kind, ⟨p, hp, hf⟩, hkind⟩ |
      ⟨o, ho, hsite, hhalf, h, hh, hcode, source, hsource, rfl⟩)
    · obtain ⟨he, hat⟩ := (hpairs (p.1, pairHit r p.2)).2 ⟨p, hp, rfl⟩
      obtain ⟨⟨hsite, -⟩, -⟩ : (p.1.site = ⟨method.id, position⟩ ∧ (m.half? p.1).isSome) ∧ _ := by
        simpa [isPairAt] using hat
      exact ⟨_, he, rfl, by rw [hsite], mem_sourceKinds_pairHit.2 ⟨f, kind, hf, hkind⟩⟩
    · exact ⟨(o, h), (mem_hitsInTurn_iff hhalf).2 ⟨ho, hh⟩, hcode, by rw [hsite],
        OrdSet.mem_ofList.2 (List.mem_map_of_mem hsource)⟩

/-- Where no halves meet, issues name kinds apart from them. -/
theorem reports_iff_of_not_fires (hnone : ¬ m.Fires method os s r position) :
    m.Reports method os s r position name ↔ m.NamesApart method os r position name := by
  rw [reports_iff hr hmem hflow hkeys hos]
  apply or_iff_right
  rintro ⟨f, kind, ⟨p, hp, -⟩, -⟩
  have hpair := (mem_pairs_iff hr hmem hflow hkeys hos s ⟨method.id, position⟩ _).2 ⟨p, hp, rfl⟩
  exact hnone ⟨_, hpair⟩

/-- The kinds that are named or wait are those that match, and those that are named apart from the
halves. -/
theorem reports_or_leavesWaiting_iff :
    m.Reports method os s r position name ∨ m.LeavesWaiting method os s r position name ↔
      m.MatchesKind method os r position name ∨ m.NamesApart method os r position name := by
  rw [reports_iff hr hmem hflow hkeys hos, leavesWaiting_iff hr hmem hflow hkeys,
    matchesKind_iff hflow hkeys, or_right_comm, ← KindTable.names_or]
  refine or_congr_left (KindTable.names_congr fun f => ?_)
  rw [mem_pairs_or_waits]
  simp [Waiting.Has]

/-- The observations up to the last pair are those whose kinds are all named by issues, and what
matches after them waits. -/
theorem exists_lastPairObserved (s : Stash) (position : Nat) :
    ∃ before after, os = before ++ after ∧
      (∀ name, m.MatchesKind method before r position name →
        m.Reports method os s r position name) ∧
      (∀ name, m.LeavesWaiting method os s r position name ↔
        m.MatchesKind method after r position name) ∧
      ¬ (m.Met r first ⟨method.id, position⟩ after ∧
        m.Met r second ⟨method.id, position⟩ after) := by
  obtain ⟨halves, rest, hsplit, hhalves, hrest⟩ :=
    exists_lastPair (m.halvesAt r ⟨method.id, position⟩ os)
  obtain ⟨before, after, rfl, hbefore, hafter⟩ := List.filterMap_eq_append_iff.1 hsplit
  obtain rfl : m.halvesAt r ⟨method.id, position⟩ before = halves := hbefore
  obtain rfl : m.halvesAt r ⟨method.id, position⟩ after = rest := hafter
  refine ⟨before, after, rfl, fun name hname => ?_, fun name => ?_, ?_⟩
  · rw [reports_iff hr hmem hflow hkeys hos]
    rw [matchesKind_iff hflow hkeys] at hname
    refine .inl ((KindTable.names_congr fun f => ?_).1 hname)
    have hall := mem_pairs_or_waits none (m.halvesAt r ⟨method.id, position⟩ before) f
    rw [hhalves] at hall
    simpa [Waiting.Has] using hall.symm
  · rw [leavesWaiting_iff hr hmem hflow hkeys, matchesKind_iff hflow hkeys]
    apply KindTable.names_congr
    intro f
    have hall := mem_pairs_or_waits none (m.halvesAt r ⟨method.id, position⟩ after) f
    rw [hrest] at hall
    simpa [Waiting.Has] using hall
  · rw [met_iff hflow hkeys, met_iff hflow hkeys]
    rintro ⟨⟨e, he, hfirst⟩, e', he', hsecond⟩
    have hpair : (meetAll none (m.halvesAt r ⟨method.id, position⟩ after)).1 ≠ [] :=
      meetAll_ne_nil_iff.2 ⟨e, he, e', he', hfirst ▸ hsecond ▸ Rule.ne_of_keys hkeys⟩
    rw [hrest] at hpair
    exact hpair rfl

end

/-- In another order the halves of a rule meet at the same calls, and the kinds that its issues at a
call name, with those that wait there for the rule, are the same. In either order the issues name
all kinds that match up to some observation, and after it no two halves are left to meet, so that
the kinds that match after it wait. Hence the issues name the same kinds where nothing goes on
waiting, or where no two halves meet. -/
theorem check_reordered (hr : m.rules.Loaded) (hmem : r ∈ m.rules.rules)
    {sources : OrdMap String (OrdSet KindId)} {sinks : OrdSet KindId}
    (hflow : r.flow = .paired sources sinks) (hos : ∀ o ∈ os, o.site.method = method.id)
    (hperm : os.Perm os') (s s' : Stash) (position : Nat) :
    (m.Fires method os s r position ↔ m.Fires method os' s' r position) ∧
      (∀ name, m.Reports method os s r position name ∨ m.LeavesWaiting method os s r position name ↔
        m.Reports method os' s' r position name ∨
          m.LeavesWaiting method os' s' r position name) ∧
      (∃ before after, os = before ++ after ∧
        (∀ name, m.MatchesKind method before r position name →
          m.Reports method os s r position name) ∧
        (∀ name, m.LeavesWaiting method os s r position name ↔
          m.MatchesKind method after r position name) ∧
        ∃ label ∈ sources.keys, ¬ m.Met r label ⟨method.id, position⟩ after) ∧
      ((¬ m.Fires method os s r position ∨
          ∀ name, ¬ m.LeavesWaiting method os s r position name ∧
            ¬ m.LeavesWaiting method os' s' r position name) →
        ∀ name, m.Reports method os s r position name ↔
          m.Reports method os' s' r position name) := by
  obtain ⟨first, second, hkeys⟩ := hr.isPaired r hmem sources sinks hflow
  have hos' : ∀ o ∈ os', o.site.method = method.id := fun o ho => hos o (hperm.mem_iff.2 ho)
  have hfires : m.Fires method os s r position ↔ m.Fires method os' s' r position := by
    unfold Fires
    rw [exists_pair_iff hr hmem hflow hkeys hos, exists_pair_iff hr hmem hflow hkeys hos',
      Met.perm hperm, Met.perm hperm]
  have hnamed (name : String) :
      m.Reports method os s r position name ∨ m.LeavesWaiting method os s r position name ↔
        m.Reports method os' s' r position name ∨
          m.LeavesWaiting method os' s' r position name := by
    rw [reports_or_leavesWaiting_iff hr hmem hflow hkeys hos,
      reports_or_leavesWaiting_iff hr hmem hflow hkeys hos', MatchesKind.perm hperm,
      NamesApart.perm hperm]
  refine ⟨hfires, hnamed, ?_, ?_⟩
  · obtain ⟨before, after, hsplit, hreported, hwaiting, hmet⟩ :=
      exists_lastPairObserved hr hmem hflow hkeys hos s position
    refine ⟨before, after, hsplit, hreported, hwaiting, ?_⟩
    rw [hkeys]
    by_cases hfirst : m.Met r first ⟨method.id, position⟩ after
    · exact ⟨second, by simp, fun hsecond => hmet ⟨hfirst, hsecond⟩⟩
    · exact ⟨first, by simp, hfirst⟩
  · rintro (hnone | hnone) name
    · rw [reports_iff_of_not_fires hr hmem hflow hkeys hos hnone,
        reports_iff_of_not_fires hr hmem hflow hkeys hos' (mt hfires.2 hnone),
        NamesApart.perm hperm]
    · have h := hnamed name
      simpa [hnone name] using h

/-- A source of bytes that comes after the two halves have met is not named by their issue; it is
named if it comes before the stream. -/
theorem reordered_reports_differ :
    launching.rules.Loaded ∧ RuleSet.launchRule ∈ launching.rules.rules ∧
      [Observation.launch 3 0, .launch 4 2, .launch 3 1].Perm
        [.launch 3 0, .launch 3 1, .launch 4 2] ∧
      launching.Fires .launching [.launch 3 0, .launch 4 2, .launch 3 1] ∅ RuleSet.launchRule 0 ∧
      launching.MatchesKind .launching [.launch 3 0, .launch 4 2, .launch 3 1] RuleSet.launchRule 0
        "Password" ∧
      ¬ launching.Reports .launching [.launch 3 0, .launch 4 2, .launch 3 1] ∅ RuleSet.launchRule 0
        "Password" ∧
      launching.Reports .launching [.launch 3 0, .launch 3 1, .launch 4 2] ∅ RuleSet.launchRule 0
        "Password" := by
  refine ⟨RuleSet.loaded_launchRule, List.mem_singleton_self _, by decide, by decide, ?_, by decide,
    by decide⟩
  exact ⟨.ofKind ⟨1⟩, ⟨1⟩, ⟨"bytes", .launch 3 1, by simp, rfl, by decide,
    ⟨∅, OrdMap.get?_alter_self _ _ _⟩, by decide⟩, rfl, rfl⟩

/-- The kind that is not named waits. -/
theorem check_reordered_launching :
    launching.LeavesWaiting .launching [.launch 3 0, .launch 4 2, .launch 3 1] ∅
      RuleSet.launchRule 0 "Password" := by
  have hos : ∀ o ∈ [Observation.launch 3 0, .launch 4 2, .launch 3 1],
      o.site.method = Method.launching.id := by decide
  have hperm : [Observation.launch 3 0, .launch 4 2, .launch 3 1].Perm
      [.launch 3 0, .launch 3 1, .launch 4 2] := by decide
  obtain ⟨-, hnamed, -, -⟩ := check_reordered (m := launching) (r := RuleSet.launchRule)
    RuleSet.loaded_launchRule (List.mem_singleton_self _) rfl hos hperm ∅ ∅ 0
  exact ((hnamed "Password").2 (.inl (by decide))).resolve_left (by decide)

end Matcher

end TaintFlow
