import TaintFlow.Proofs.Acceptance
import TaintFlow.Proofs.TriggeredKinds

/-!
Which declarations of rules are accepted: the well-formed ones (`RuleDeclaration.WellFormed`),
whatever kinds are known already. What an accepted rule about paired flows needs for matching holds
then: its sinks are the two halves of one base, each label is the counterpart of the other, and the
triggered forms of both halves are in the table (`Rule.Paired`).
-/

namespace TaintFlow

def PairedSink.names : PairedSink → List String
  | .anyLabel base => [base]
  | .labeled base label => [base, label]

namespace RuleDeclaration

def names (d : RuleDeclaration) : List String :=
  d.sources.getD [] ++ d.sinks.getD [] ++ d.transforms.getD [] ++ d.effectSources.getD [] ++
    (d.multiSources.getD ∅).keys ++ (d.multiSources.getD ∅).values.flatten ++
    (d.partialSinks.getD []).flatMap PairedSink.names

/-- There are sources for each of two labels, and the sinks stand for both halves of one base. -/
structure PairsUp (sources : OrdMap String (List String)) (sinks : List PairedSink) : Prop where
  labels : sources.keys.length = 2
  listed : ∀ names ∈ sources.values, names ≠ []
  known : ∀ base label, .labeled base label ∈ sinks → label ∈ sources.keys
  halves : ∃ base, ∀ half, (∃ sink ∈ sinks, Rule.Expands sources.keys sink half) ↔
    half.base = base ∧ half.label ∈ sources.keys

def DeclaresDirect (d : RuleDeclaration) : Prop :=
  (∃ sources sinks, d.sources = some sources ∧ d.sinks = some sinks ∧ sources ≠ [] ∧ sinks ≠ []) ∧
    d.multiSources = none ∧ d.partialSinks = none

def DeclaresPaired (d : RuleDeclaration) : Prop :=
  (∃ sources sinks, d.multiSources = some sources ∧ d.partialSinks = some sinks ∧
    PairsUp sources sinks) ∧ d.sources = none ∧ d.sinks = none

/-- There is one kind of flow, what is asked for besides is not empty, and all names are names of
kinds. -/
structure WellFormed (d : RuleDeclaration) : Prop where
  flow : d.DeclaresDirect ∨ d.DeclaresPaired
  transforms : d.transforms ≠ some []
  effectSources : d.effectSources ≠ some []
  names : ∀ name ∈ d.names, IsKindName name

variable {sources : OrdMap String (List String)} {sinks : List PairedSink}

/-- The names in the halves that sinks stand for are the labels and the names in the sinks. -/
theorem PairsUp.names_iff (h : PairsUp sources sinks) {P : String → Prop} :
    (∀ half, (∃ sink ∈ sinks, Rule.Expands sources.keys sink half) → P half.base ∧ P half.label) ↔
      (∀ label ∈ sources.keys, P label) ∧ ∀ name ∈ sinks.flatMap PairedSink.names, P name := by
  obtain ⟨base, hbase⟩ := h.halves
  simp only [List.mem_flatMap]
  constructor
  · refine fun hhalves => ⟨fun label hlabel => ?_, ?_⟩
    · exact (hhalves ⟨base, label⟩ ((hbase _).2 ⟨rfl, hlabel⟩)).2
    · rintro name ⟨sink, hsink, hname⟩
      cases sink with
      | anyLabel own =>
        obtain ⟨label, hlabel⟩ := List.exists_mem_of_length_pos (h.labels ▸ Nat.two_pos)
        obtain rfl := List.mem_singleton.1 hname
        exact (hhalves ⟨name, label⟩ ⟨_, hsink, .anyLabel hlabel⟩).1
      | labeled own label =>
        obtain ⟨hown, hlabel⟩ :=
          hhalves ⟨own, label⟩ ⟨_, hsink, .labeled (h.known own label hsink)⟩
        rcases List.mem_cons.1 hname with rfl | hname
        · exact hown
        · exact List.mem_singleton.1 hname ▸ hlabel
  · rintro ⟨hlabels, hnames⟩ half ⟨sink, hsink, hexpands⟩
    refine ⟨hnames _ ⟨sink, hsink, ?_⟩, hlabels _ hexpands.label_mem⟩
    cases hexpands <;> exact List.mem_cons_self

end RuleDeclaration

namespace Rule

open Interning RuleDeclaration

/-! ### Acceptance -/

theorem accepts_internAll (names : List String) :
    (internAll names).Accepts (∀ name ∈ names, IsKindName name) :=
  accepts_map (accepts_namedAll names) _

theorem accepts_expand (rule : String) (labels : List String) (sink : PairedSink) :
    (expand rule labels sink).Accepts
      (∀ base label, sink = .labeled base label → label ∈ labels) := by
  cases sink with
  | anyLabel base => exact (accepts_pure _).congr (by simp)
  | labeled base label =>
    show Accepts (if labels.contains label then pure [(base, label)]
      else throw (.unknownLabel rule label)) _
    split
    · next hlabel => exact (accepts_pure _).congr (by simpa using hlabel)
    · next hlabel => exact (accepts_throw _).congr (by simpa using hlabel)

theorem accepts_directFlow (rule : String) (sources sinks : List String) :
    (directFlow rule sources sinks).Accepts ((sources ≠ [] ∧ sinks ≠ []) ∧
      (∀ name ∈ sources, IsKindName name) ∧ ∀ name ∈ sinks, IsKindName name) := by
  unfold directFlow
  refine (accepts_guard fun _ => accepts_seq (accepts_internAll sources) fun _ =>
    accepts_map (accepts_internAll sinks) _).congr ?_
  simp

/-- Halves of two labels are accepted as the two of one base, whose names are names of kinds. -/
theorem accepts_pair {labels : List String} (hnodup : labels.Nodup) (hlength : labels.length = 2)
    {e : ConfigError} {halves : List (String × String)} (declared : Half → Prop)
    (hhalves : ∀ e, e ∈ halves ↔ declared ⟨e.1, e.2⟩)
    (hlabels : ∀ half, declared half → half.label ∈ labels) (flow : List KindId → Flow) :
    Accepts (do
      if !isPair (OrdSet.ofList halves) then throw e
      let ids ← (OrdSet.ofList halves).toList.mapM fun (base, label) => half base label
      return flow ids)
      ((∃ base, ∀ half, declared half ↔ half.base = base ∧ half.label ∈ labels) ∧
        ∀ half, declared half → IsKindName half.base ∧ IsKindName half.label) := by
  have hmem (half : Half) : (half.base, half.label) ∈ OrdSet.ofList halves ↔ declared half :=
    OrdSet.mem_ofList.trans (hhalves _)
  have hpair : isPair (OrdSet.ofList halves) = true ↔
      ∃ base, ∀ e, e ∈ OrdSet.ofList halves ↔ e.1 = base ∧ e.2 ∈ labels :=
    isPair_iff hnodup hlength fun e he => hlabels ⟨e.1, e.2⟩ ((hmem ⟨e.1, e.2⟩).1 he)
  have hhalf (e : String × String) : Accepts (half e.1 e.2) (IsKindName e.1 ∧ IsKindName e.2) :=
    accepts_half e.1 e.2
  refine (accepts_guard fun _ => accepts_map (accepts_mapM hhalf _) flow).congr (and_congr ?_ ?_)
  · rw [Bool.not_eq_true', Bool.not_eq_false, hpair]
    refine exists_congr fun base => ⟨fun h half => ?_, fun h e => ?_⟩
    · rw [← hmem, h]
    · rw [hmem ⟨e.1, e.2⟩, h]
  · refine ⟨fun h half hdeclared => ?_, fun h e he => ?_⟩
    · exact h (half.base, half.label) (OrdSet.mem_toList.2 ((hmem half).2 hdeclared))
    · exact h ⟨e.1, e.2⟩ ((hmem ⟨e.1, e.2⟩).1 (OrdSet.mem_toList.1 he))

theorem accepts_pairedFlow (rule : String) (sources : OrdMap String (List String))
    (sinks : List PairedSink) :
    (pairedFlow rule sources sinks).Accepts (PairsUp sources sinks ∧
      (∀ name ∈ sources.keys, IsKindName name) ∧
      (∀ name ∈ sources.values.flatten, IsKindName name) ∧
      ∀ name ∈ sinks.flatMap PairedSink.names, IsKindName name) := by
  have hlabel (e : String × List String) : Accepts (do
      if e.2.isEmpty then throw (.malformedRule rule (.labelWithoutSources e.1))
      return (e.1, ← internAll e.2)) (e.2 ≠ [] ∧ ∀ name ∈ e.2, IsKindName name) :=
    (accepts_guard fun _ => accepts_map (accepts_internAll e.2) _).congr (by simp)
  have hlength (h : ¬ sources.size ≠ 2) : sources.keys.length = 2 :=
    sources.length_keys.trans (not_not.1 h)
  have hlabels (half : Half) (h : ∃ sink ∈ sinks, Expands sources.keys sink half) :
      half.label ∈ sources.keys := by
    obtain ⟨sink, -, hexpands⟩ := h
    exact hexpands.label_mem
  unfold pairedFlow
  refine (accepts_guard fun hsize => accepts_seq (accepts_mapM hlabel _) fun read =>
    accepts_bind (accepts_mapM (accepts_expand rule _) _) (yields_expandAll rule _ sinks)
      fun halves hhalves => accepts_pair sources.nodup_keys (hlength hsize) _ hhalves hlabels
        _).congr ?_
  have hvalues : (∀ e ∈ sources.entries, e.2 ≠ [] ∧ ∀ name ∈ e.2, IsKindName name) ↔
      (∀ names ∈ sources.values, names ≠ []) ∧
        ∀ name ∈ sources.values.flatten, IsKindName name := by
    simp only [OrdMap.values, List.forall_mem_flatten, List.forall_mem_map, forall_and]
  rw [hvalues]
  constructor
  · rintro ⟨hsize, ⟨hlisted, hnames⟩, hknown, hpair, hhalves⟩
    have hpairs : PairsUp sources sinks :=
      ⟨hlength hsize, hlisted, fun base label h => hknown _ h base label rfl, hpair⟩
    obtain ⟨hlabels, htexts⟩ := hpairs.names_iff.1 hhalves
    exact ⟨hpairs, hlabels, hnames, htexts⟩
  · rintro ⟨hpairs, hlabels, hnames, htexts⟩
    refine ⟨not_not.2 ?_, ⟨hpairs.listed, hnames⟩, ?_, hpairs.halves,
      hpairs.names_iff.2 ⟨hlabels, htexts⟩⟩
    · exact sources.length_keys.symm.trans hpairs.labels
    · rintro sink hsink base label rfl
      exact hpairs.known base label hsink

theorem accepts_flowOf (d : RuleDeclaration) :
    (flowOf d).Accepts ((d.DeclaresDirect ∨ d.DeclaresPaired) ∧
      (∀ name ∈ d.sources.getD [], IsKindName name) ∧ (∀ name ∈ d.sinks.getD [], IsKindName name) ∧
      (∀ name ∈ (d.multiSources.getD ∅).keys, IsKindName name) ∧
      (∀ name ∈ (d.multiSources.getD ∅).values.flatten, IsKindName name) ∧
      ∀ name ∈ (d.partialSinks.getD []).flatMap PairedSink.names, IsKindName name) := by
  unfold flowOf
  -- lists of both kinds of flow are refused before it is asked what is missing
  split
  · next hsources hsinks hmulti hpartial =>
    refine (accepts_guard fun _ => accepts_guard fun _ => accepts_directFlow _ _ _).congr ?_
    have hnone : (∅ : OrdMap String (List String)).entries = [] := rfl
    simp [DeclaresDirect, DeclaresPaired, hsources, hsinks, hmulti, hpartial, OrdMap.keys,
      OrdMap.values, hnone, and_assoc]
  · next hsources hsinks hmulti hpartial =>
    refine (accepts_guard fun _ => accepts_guard fun _ => accepts_pairedFlow _ _ _).congr ?_
    simp [DeclaresDirect, DeclaresPaired, hsources, hsinks, hmulti, hpartial]
  · next hsources hsinks hmulti hpartial =>
    refine (accepts_guard fun _ => accepts_guard fun _ => accepts_throw _).congr ?_
    simp [DeclaresDirect, DeclaresPaired, hsources, hpartial]
  · next hsources hsinks hmulti hpartial =>
    refine (accepts_guard fun _ => accepts_guard fun _ => accepts_throw _).congr ?_
    simp [DeclaresDirect, DeclaresPaired, hsources, hmulti]
  -- neither of the two pairs of lists is there
  · next hdirect hpaired _ _ =>
    refine (accepts_guard fun _ => accepts_guard fun _ => accepts_throw _).congr ?_
    have hneither : ¬ (d.DeclaresDirect ∨ d.DeclaresPaired) := by
      rintro (⟨⟨sources, sinks, hsources, hsinks, -⟩, hmulti, hpartial⟩ |
        ⟨⟨sources, sinks, hmulti, hpartial, -⟩, hsources, hsinks⟩)
      · exact hdirect sources sinks hsources hsinks hmulti hpartial
      · exact hpaired sources sinks hsources hsinks hmulti hpartial
    simp [hneither]

theorem accepts_nonEmpty (rule : String) (defect : RuleDefect) (names? : Option (List String)) :
    Accepts (liftM (nonEmpty rule defect names?) : Interning (Option (List String)))
      (names? ≠ some []) := by
  refine (accepts_lift _).congr ?_
  rcases names? with _ | _ | _ <;>
    simp [nonEmpty, pure, Except.pure, throw, throwThe, MonadExceptOf.throw]

theorem yields_nonEmpty (rule : String) (defect : RuleDefect) (names? : Option (List String)) :
    Yields (liftM (nonEmpty rule defect names?) : Interning (Option (List String)))
      (· = names?) := by
  rcases names? with _ | _ | _
  · exact yields_pure rfl
  · exact yields_throw
  · exact yields_pure rfl

/-- A declaration is accepted if and only if it is well-formed. -/
theorem accepts_ofDeclaration (d : RuleDeclaration) : (ofDeclaration d).Accepts d.WellFormed := by
  have hlist {α : Type} {f : List String → Interning α} {names? declared? : Option (List String)}
      (hf : ∀ names, (f names).Accepts (∀ name ∈ names, IsKindName name)) (h : names? = declared?) :
      (names?.mapM f).Accepts (∀ name ∈ declared?.getD [], IsKindName name) := by
    subst h
    exact (accepts_mapM_option hf names?).congr (by cases names? <;> simp)
  unfold ofDeclaration
  refine (accepts_seq (accepts_flowOf d) fun flow =>
    accepts_bind (accepts_nonEmpty _ _ _) (yields_nonEmpty _ _ _) fun _ htransforms =>
    accepts_seq (hlist accepts_namedAll htransforms) fun _ =>
    accepts_bind (accepts_nonEmpty _ _ _) (yields_nonEmpty _ _ _) fun _ heffects =>
    accepts_seq (hlist accepts_internAll heffects) fun _ => (?_ : Accepts _ True)).congr ?_
  · cases flow with
    | direct _ _ => exact accepts_pure _
    | paired _ sinks =>
      have htriggers := accepts_forM (fun id => accepts_trigger id d.code) sinks.toList
      exact (accepts_seq htriggers fun _ => accepts_pure _).congr (by simp)
  · constructor
    · rintro ⟨⟨hflow, hsources, hsinks, hlabels, hlisted, htexts⟩, ht, htransforms, he, heffects, -⟩
      refine ⟨hflow, ht, he, ?_⟩
      simp only [names, List.forall_mem_append, and_assoc]
      exact ⟨hsources, hsinks, htransforms, heffects, hlabels, hlisted, htexts⟩
    · rintro ⟨hflow, ht, he, hnames⟩
      simp only [names, List.forall_mem_append, and_assoc] at hnames
      obtain ⟨hsources, hsinks, htransforms, heffects, hlabels, hlisted, htexts⟩ := hnames
      exact ⟨⟨hflow, hsources, hsinks, hlabels, hlisted, htexts⟩, ht, htransforms, he, heffects,
        trivial⟩

/-! ### Accepted rules -/

variable {r : Rule} {t : KindTable} {sources : OrdMap String (OrdSet KindId)}
  {sinks : OrdSet KindId}

/-- A rule about paired flows and the kinds in the table: the sinks are the two halves of one base,
each label is the counterpart of the other, and the triggered forms of both halves are known. -/
structure Paired (r : Rule) (t : KindTable) (sinks : OrdSet KindId) (base first second : String)
    (firstId secondId : KindId) : Prop where
  different : first ≠ second ∧ firstId ≠ secondId
  sinks : ∀ id, id ∈ sinks ↔ id = firstId ∨ id = secondId
  halves : t.half? firstId = some ⟨base, first⟩ ∧ t.half? secondId = some ⟨base, second⟩
  counterparts : r.otherLabel? first = some second ∧ r.otherLabel? second = some first
  triggers : t.Triggers r.code firstId ∧ t.Triggers r.code secondId

/-- The halves of a base with two labels are two sinks. -/
theorem paired_of_halves {base first second : String} (hflow : r.flow = .paired sources sinks)
    (hkeys : sources.keys = [first, second]) (hhalves : t.Halves base sources.keys sinks)
    (htriggers : ∀ sink ∈ sinks, t.Triggers r.code sink) :
    ∃ firstId secondId, r.Paired t sinks base first second firstId secondId := by
  rw [hkeys] at hhalves
  have hne := ne_of_keys hkeys
  obtain ⟨firstId, hfirst, hfind⟩ := hhalves.found first (by simp)
  obtain ⟨secondId, hsecond, hfind'⟩ := hhalves.found second (by simp)
  have hhalf := KindTable.half?_of_find? hfind
  have hhalf' := KindTable.half?_of_find? hfind'
  refine ⟨firstId, secondId, ⟨hne, ?_⟩, fun id => ⟨fun hid => ?_, ?_⟩, ⟨hhalf, hhalf'⟩,
    otherLabel?_of_keys hflow hkeys, htriggers _ hfirst, htriggers _ hsecond⟩
  · rintro rfl
    rw [hhalf] at hhalf'
    cases hhalf'
    exact hne rfl
  · obtain ⟨label, hlabel, hid⟩ := hhalves.label id hid
    rcases List.mem_cons.1 hlabel with rfl | hlabel
    · exact .inl (Option.some.inj (hid.symm.trans hfind))
    · obtain rfl := List.mem_singleton.1 hlabel
      exact .inr (Option.some.inj (hid.symm.trans hfind'))
  · rintro (rfl | rfl)
    · exact hfirst
    · exact hsecond

/-- Whatever kinds are known, a declaration is accepted if and only if it is well-formed. With
labels, what is accepted is a rule about paired flows with the two labels that are declared, whose
sinks are the halves with these labels and one base, each label the counterpart of the other, and
the triggered forms of both are in the table then. -/
theorem ofDeclaration_accepted (d : RuleDeclaration) (t : KindTable) :
    ((∃ r t', (ofDeclaration d).runOn t = (.ok r, t')) ↔ d.WellFormed) ∧
      ∀ r t', (ofDeclaration d).runOn t = (.ok r, t') → r.code = d.code ∧
        (d.multiSources = none → ∃ sources sinks, r.flow = .direct sources sinks) ∧
        ∀ multiSources, d.multiSources = some multiSources →
          ∃ sources sinks base first second firstId secondId, r.flow = .paired sources sinks ∧
            sources.keys = multiSources.keys ∧ multiSources.keys = [first, second] ∧
            r.Paired t' sinks base first second firstId secondId := by
  refine ⟨accepts_ofDeclaration d t, fun r t' hrun => ?_⟩
  obtain ⟨hcode, hlabels⟩ := yields_ofDeclaration d t r t' hrun
  obtain ⟨-, hhalves, htriggers⟩ := extends_ofDeclaration d r t' hrun
  refine ⟨hcode, fun hnone => ?_, fun multiSources hmulti => ?_⟩
  · cases hflow : r.flow with
    | direct sources sinks => exact ⟨sources, sinks, rfl⟩
    | paired sources sinks =>
      rw [hflow, hnone] at hlabels
      cases hlabels.1
  · cases hflow : r.flow with
    | direct sources sinks =>
      rw [hflow, hmulti] at hlabels
      cases hlabels
    | paired sources sinks =>
      rw [hflow, hmulti] at hlabels
      obtain ⟨first, second, hkeys⟩ := List.length_eq_two.1 hlabels.2
      have hdeclared : multiSources.keys = sources.keys := Option.some.inj hlabels.1
      obtain ⟨base, hbase⟩ := hhalves sources sinks hflow
      obtain ⟨firstId, secondId, hpaired⟩ := paired_of_halves hflow hkeys hbase fun sink hsink =>
        htriggers sink (by simpa [RuleSet.halfKeys, hflow] using OrdSet.mem_toList.2 hsink)
      exact ⟨sources, sinks, base, first, second, firstId, secondId, rfl, hdeclared.symm,
        hdeclared.trans hkeys, hpaired⟩

/-- What is launched is accepted as a rule about bytes and a stream, from no kinds at all. -/
theorem ofDeclaration_accepted_launch :
    RuleSet.launchDeclaration.WellFormed ∧
      (ofDeclaration RuleSet.launchDeclaration).runOn ∅ =
        (.ok RuleSet.launchRule, RuleSet.launchKinds) ∧
      ∃ sources sinks base first second firstId secondId,
        RuleSet.launchRule.flow = .paired sources sinks ∧ sources.keys = ["bytes", "stream"] ∧
          RuleSet.launchRule.Paired RuleSet.launchKinds sinks base first second firstId
            secondId := by
  have hrun : (ofDeclaration RuleSet.launchDeclaration).runOn ∅ =
      (.ok RuleSet.launchRule, RuleSet.launchKinds) := by rfl
  obtain ⟨haccepted, hrule⟩ := ofDeclaration_accepted RuleSet.launchDeclaration ∅
  obtain ⟨sources, sinks, base, first, second, firstId, secondId, hflow, hkeys, -, hpaired⟩ :=
    (hrule _ _ hrun).2.2 _ rfl
  exact ⟨haccepted.1 ⟨_, _, hrun⟩, hrun, sources, sinks, base, first, second, firstId, secondId,
    hflow, hkeys, hpaired⟩

end Rule

end TaintFlow
