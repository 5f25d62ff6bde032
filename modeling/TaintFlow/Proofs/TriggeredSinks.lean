import TaintFlow.Proofs.DirectFlows
import TaintFlow.Proofs.TriggeredKinds

/-!
Triggered sinks. A parameter that reaches a half of a rule becomes a triggered sink if and only if
the other label of the rule is met at the call, by any of the observations
(`Matcher.Opens`). Where a triggered sink is observed, its rule is found once for every source that
is accepted for the label of the half that was open. With loaded rules nothing is lost in between:
every triggered kind is in the table (`Matcher.check_triggered`).
-/

namespace TaintFlow

/-! ### Lists item by item -/

section

variable {α β : Type} {R : α → β → Prop}

theorem forall₂_flatMap {ι : Type} {f : ι → List α} {g : ι → List β} {is : List ι}
    (h : ∀ i ∈ is, List.Forall₂ R (f i) (g i)) : List.Forall₂ R (is.flatMap f) (is.flatMap g) := by
  induction is with
  | nil => exact .nil
  | cons i is ih =>
    exact List.rel_append (h i List.mem_cons_self) (ih fun j hj => h j (List.mem_cons_of_mem i hj))

/-- What a partial map yields goes with the items for which it yields anything. -/
theorem forall₂_filterMap {g : α → Option β} {p : α → Bool} {as : List α}
    (hsome : ∀ a ∈ as, p a = true → ∃ b, g a = some b ∧ R a b)
    (hnone : ∀ a ∈ as, p a = false → g a = none) :
    List.Forall₂ R (as.filter p) (as.filterMap g) := by
  induction as with
  | nil => exact .nil
  | cons a as ih =>
    have hrest := ih (fun b hb => hsome b (List.mem_cons_of_mem a hb))
      fun b hb => hnone b (List.mem_cons_of_mem a hb)
    cases hp : p a with
    | true =>
      obtain ⟨b, hb, hR⟩ := hsome a List.mem_cons_self hp
      rw [List.filter_cons_of_pos hp, List.filterMap_cons_some hb]
      exact .cons hR hrest
    | false =>
      rw [List.filter_cons_of_neg (by simp [hp]),
        List.filterMap_cons_none (hnone a List.mem_cons_self hp)]
      exact hrest

end

def Observation.HasParameter (o : Observation) (parameter : Frame × FrameInfo) : Prop :=
  o.parameters.get? parameter.1 = some parameter.2 ∧ parameter.1.isArgument = true

theorem listsOnce_parameters (o : Observation) :
    ListsOnce o.HasParameter (o.parameters.entries.filter fun e => e.1.isArgument) where
  nodup := List.Nodup.filter _ (.of_map Prod.fst o.parameters.nodup_keys)
  mem_iff _ := List.mem_filter.trans (and_congr_left' OrdMap.get?_eq_some_iff.symm)

namespace Matcher

variable (m : Matcher)

/-! ### Inference -/

/-- The observed sink is a half of a rule whose other label is met at the call. -/
def IsOpen (os : List Observation) (o : Observation) (r : Rule) : Prop :=
  ∃ e ∈ m.half? o, e.1 ∈ RuleSet.halfKeys r ∧
    ∃ other ∈ r.otherLabel? e.2.label, m.Met r other o.site os

def IsOpening (os : List Observation)
    (x : (Observation × Nat) × Rule × (Frame × FrameInfo)) : Prop :=
  os[x.1.2]? = some x.1.1 ∧ (x.2.1 ∈ m.rules.rules ∧ m.IsOpen os x.1.1 x.2.1) ∧
    x.1.1.HasParameter x.2.2

/-- The triggered sink at a parameter that reaches an open half of a rule: it is at the place of the
parameter and has the triggered kind of the half. Its transforms are those of the parameter and then
those of the half, up to the limit, and it has the sanitizers of both. -/
structure Opens (o : Observation) (r : Rule) (parameter : Frame × FrameInfo)
    (e : Port × Frame × FrameInfo) : Prop where
  port : ∃ index path, parameter.1.label = .argument index path ∧ e.1 = ⟨.argument index, path⟩
  kind : ∃ half ∈ m.half? o, ∃ triggered, e.2.1.label = .kind triggered ∧
    m.kinds.findTriggered? half.1 r.code = some triggered ∧
      m.kinds.get? triggered = some (.triggered half.2 r.code)
  transforms : e.2.1.transforms =
    (parameter.1.transforms ++ o.sink.transforms).take m.maxTransformLength
  sanitizers : e.2.1.sanitizers = parameter.1.sanitizers ∪ o.sink.sanitizers
  trace : e.2.2.trace = o.info.trace
  features : e.2.2.features = o.info.features ∪ parameter.2.features

variable {m} {os : List Observation} {o : Observation} {r : Rule}

section

variable (hr : m.rules.WellFormed) (hmem : r ∈ m.rules.rules)

include hr hmem

/-- The label of a rule that an observation meets is that of its half. -/
theorem mem_labelsMet_iff {site : CallSite} {label : String} :
    (r.code, site, label) ∈ m.labelsMet o ↔
      o.site = site ∧ ∃ h, m.halfOf? r o = some h ∧ h.label = label := by
  have hfor (sink : KindId) : r ∈ m.rules.rulesForHalf sink ↔ sink ∈ RuleSet.halfKeys r :=
    ((hr.listsOnce_rulesForHalf sink).mem_iff r).trans (and_iff_right hmem)
  unfold labelsMet halfOf?
  cases m.half? o with
  | none => simp
  | some e =>
    obtain ⟨sink, half⟩ := e
    dsimp only [Option.bind_some]
    rw [halfHits_eq, List.mem_map]
    constructor
    · rintro ⟨h, hh, heq⟩
      obtain ⟨r', hr', hhit⟩ := List.mem_filterMap.1 hh
      obtain ⟨hcode, rfl, rfl⟩ : h.rule.code = r.code ∧ o.site = site ∧ h.label = label := by
        simpa using heq
      have hrule : r' = r := by
        rw [halfHit?_rule hhit] at hcode
        exact eq_of_code hr hmem (hr.mem_of_mem_rulesForHalf hr') hcode
      subst hrule
      exact ⟨rfl, h, (if_pos ((hfor sink).1 hr')).trans hhit, rfl⟩
    · rintro ⟨rfl, h, hh, rfl⟩
      split at hh
      · next hsink =>
        exact ⟨h, List.mem_filterMap.2 ⟨r, (hfor sink).2 hsink, hh⟩, by rw [halfHit?_rule hh]⟩
      · cases hh

end

/-- A label of a rule is recorded for a call if and only if it is met there. -/
theorem mem_metLabels_iff (hr : m.rules.Loaded) (hmem : r ∈ m.rules.rules) {site : CallSite}
    {label : String} : (r.code, site, label) ∈ m.metLabels os ↔ m.Met r label site os := by
  have hlabels : (r.code, site, label) ∈ m.metLabels os ↔
      ∃ o ∈ os, o.site = site ∧ ∃ h, m.halfOf? r o = some h ∧ h.label = label := by
    rw [metLabels_eq, OrdSet.mem_ofList, List.mem_flatMap]
    exact exists_congr fun o => and_congr_right' (mem_labelsMet_iff hr.wellFormed hmem)
  rw [hlabels]
  cases hflow : r.flow with
  | direct sources sinks =>
    have hkeys : RuleSet.halfKeys r = [] := by rw [RuleSet.halfKeys, hflow]
    constructor
    · rintro ⟨o, -, -, h, hh, -⟩
      obtain ⟨⟨e, -, hsink, -⟩, -⟩ := halfOf?_eq_some hh
      rw [hkeys] at hsink
      cases hsink
    · rintro ⟨o, -, -, f, ⟨e, -, hsink, -⟩, -⟩
      rw [hkeys] at hsink
      cases hsink
  | paired sources sinks =>
    obtain ⟨first, second, hkeys⟩ := hr.isPaired r hmem sources sinks hflow
    rw [met_iff hflow hkeys]
    constructor
    · rintro ⟨o, ho, hsite, h, hh, hlabel⟩
      exact ⟨_, mem_halvesAt.2 ⟨o, ho, hsite, h, hh, rfl⟩, hlabel⟩
    · rintro ⟨_, he, hlabel⟩
      obtain ⟨o, ho, hsite, h, hh, rfl⟩ := mem_halvesAt.1 he
      exact ⟨o, ho, hsite, h, hh, hlabel⟩

def isOpen (met : OrdSet (Int × CallSite × String)) (o : Observation) (half : Half) (r : Rule) :
    Bool :=
  (r.otherLabel? half.label).any fun other => met.contains (r.code, o.site, other)

variable (m) in
def openings (met : OrdSet (Int × CallSite × String)) (o : Observation) :
    List (Rule × (Frame × FrameInfo)) :=
  match m.half? o with
  | none => []
  | some (sink, half) =>
    ((m.rules.rulesForHalf sink).filter (isOpen met o half)).flatMap fun r =>
      (o.parameters.entries.filter fun e => e.1.isArgument).map (r, ·)

theorem listsOnce_openings (hr : m.rules.Loaded) (os : List Observation) (o : Observation) :
    ListsOnce (fun x => (x.1 ∈ m.rules.rules ∧ m.IsOpen os o x.1) ∧ o.HasParameter x.2)
      (m.openings (m.metLabels os) o) := by
  unfold openings
  cases hhalf : m.half? o with
  | none =>
    have hnone (r : Rule) : ¬ m.IsOpen os o r := fun ⟨e, he, _⟩ => by
      rw [hhalf] at he
      cases he
    exact ⟨List.nodup_nil, by simp [hnone]⟩
  | some e =>
    obtain ⟨sink, half⟩ := e
    have hrules : ListsOnce (fun r => r ∈ m.rules.rules ∧ m.IsOpen os o r)
        ((m.rules.rulesForHalf sink).filter (isOpen (m.metLabels os) o half)) := by
      refine ((hr.wellFormed.listsOnce_rulesForHalf sink).filter _).congr fun r => ?_
      rw [and_assoc]
      refine and_congr_right fun hmem => ?_
      have hmet : isOpen (m.metLabels os) o half r = true ↔
          ∃ other ∈ r.otherLabel? half.label, m.Met r other o.site os := by
        simp only [isOpen, Option.any_eq_true, Option.mem_def]
        exact exists_congr fun other => and_congr_right' (mem_metLabels_iff hr hmem)
      rw [hmet, IsOpen, hhalf]
      simp
    exact hrules.pairs fun _ => listsOnce_parameters o

/-- What is triggered at an observation goes with its openings. -/
theorem openings_opened (hr : m.rules.LoadedIn m.kinds)
    (met : OrdSet (Int × CallSite × String)) (o : Observation) :
    List.Forall₂ (fun x e => m.Opens o x.1 x.2 e) (m.openings met o) (m.triggeredSinks met o) := by
  rw [triggeredSinks_eq, openings]
  cases hhalf : m.half? o with
  | none => exact .nil
  | some e =>
    obtain ⟨sink, half⟩ := e
    dsimp only
    have hclosed (r : Rule) (h : isOpen met o half r = false) :
        m.sinksOfRule met o sink half r = [] := if_neg (by simpa [isOpen] using h)
    rw [← flatMap_filter_of_nil hclosed]
    refine forall₂_flatMap fun r hr' => ?_
    obtain ⟨hr', hopen⟩ := List.mem_filter.1 hr'
    obtain ⟨hmem, hsink⟩ := ((hr.loaded.wellFormed.listsOnce_rulesForHalf sink).mem_iff r).1 hr'
    obtain ⟨half', triggered, hhalf', hfind, hget⟩ := hr.triggers r hmem sink hsink
    obtain rfl : half = half' := by
      have hsome := ((m.half?_eq_some_iff).1 hhalf).2
      rw [KindTable.half?_eq_some_iff, hsome] at hhalf'
      cases hhalf'
      rfl
    have hsinks : m.sinksOfRule met o sink half r =
        o.atParameters (.kind triggered) m.maxTransformLength := by
      rw [sinksOfRule, hfind]
      exact if_pos hopen
    rw [hsinks, List.forall₂_map_left_iff, Observation.atParameters]
    refine forall₂_filterMap (fun e _ hargument => ?_) fun e _ hargument => ?_
    · obtain ⟨⟨label, transforms, sanitizers⟩, info⟩ := e
      cases label with
      | kind id => cases hargument
      | argument index path =>
        exact ⟨_, rfl, ⟨index, path, rfl, rfl⟩, ⟨_, hhalf, triggered, rfl, hfind, hget⟩, rfl, rfl, rfl,
          rfl⟩
    · obtain ⟨⟨label, transforms, sanitizers⟩, info⟩ := e
      cases label with
      | kind id => rfl
      | argument index path => cases hargument

/-! ### Triggered sinks that are observed -/

variable (m) in
def triggeredSink? (o : Observation) : Option (Half × Int) := o.sink.kind?.bind m.kinds.triggered?

variable (m) in
/-- A source meets the rule of the triggered sink that is observed: it is accepted for the label of
the half. -/
def MeetsTriggered (o : Observation) (source : KindId × Frame × FrameInfo) (r : Rule) : Prop :=
  r ∈ m.rules.rules ∧ ∃ t ∈ m.triggeredSink? o, t.2 = r.code ∧ r.Accepts t.1.label o.sink source.2.1

variable (m) in
def IsTriggeredFlow (os : List Observation)
    (x : (Observation × Nat) × (KindId × Frame × FrameInfo) × Rule) : Prop :=
  os[x.1.2]? = some x.1.1 ∧ x.1.1.HasSource x.2.1 ∧ m.MeetsTriggered x.1.1 x.2.1 x.2.2

variable (m) in
def triggeredFlows (o : Observation) : List ((KindId × Frame × FrameInfo) × Rule) :=
  o.sources.kinds.flatMap fun source =>
    ((m.triggeredSink? o).bind fun t => (m.rules.get? t.2).filter fun r =>
      r.Accepts t.1.label o.sink source.2.1).toList.map (source, ·)

theorem listsOnce_triggeredFlows (hr : m.rules.WellFormed) (o : Observation) :
    ListsOnce (fun x => o.HasSource x.1 ∧ m.MeetsTriggered o x.1 x.2) (m.triggeredFlows o) := by
  refine (listsOnce_kinds o).pairs fun source => ⟨?_, fun r => ?_⟩
  · cases (m.triggeredSink? o).bind _ <;> simp
  · rw [Option.mem_toList, Option.bind_eq_some_iff]
    constructor
    · rintro ⟨t, ht, hrule⟩
      obtain ⟨hget, haccepts⟩ := Option.filter_eq_some_iff.1 hrule
      obtain ⟨hmem, hcode⟩ := hr.get?_eq_some_iff.1 hget
      exact ⟨hmem, t, ht, hcode.symm, of_decide_eq_true haccepts⟩
    · rintro ⟨hmem, t, ht, hcode, haccepts⟩
      exact ⟨t, ht, Option.filter_eq_some_iff.2
        ⟨hr.get?_eq_some_iff.2 ⟨hmem, hcode.symm⟩, decide_eq_true haccepts⟩⟩

/-- The sources that meet the missing half of a rule are those that it accepts. -/
theorem kinds_meeting (r : Rule) (label : String) (o : Observation) :
    (meeting r ((r.labelSources? label).getD ∅) o).kinds =
      o.sources.kinds.filter fun source => r.Accepts label o.sink source.2.1 := by
  have hmeeting : meeting r ((r.labelSources? label).getD ∅) o =
      OrdMap.filter (fun f _ => r.Accepts label o.sink f) o.sources := by
    cases h : r.labelSources? label with
    | some accepted => exact meeting_eq h
    | none =>
      have hnot (f : Frame) : ¬ r.Accepts label o.sink f := fun ⟨⟨accepted, haccepted, _⟩, _⟩ => by
        rw [h] at haccepted
        cases haccepted
      have hnone (f : Frame) :
          f.kind?.any ((none : Option (OrdSet KindId)).getD ∅).contains = false := by
        cases f.kind? <;> rfl
      simp only [meeting, hnone, Bool.false_and, hnot, decide_false]
  rw [hmeeting]
  show ((o.sources.entries.filter fun e => r.Accepts label o.sink e.1).filterMap _) =
    (o.sources.entries.filterMap _).filter _
  rw [List.filterMap_filter, List.filter_filterMap]
  refine List.filterMap_congr fun e _ => ?_
  cases e.1.kind? with
  | none => simp
  | some id => by_cases h : r.Accepts label o.sink e.1 <;> simp [Option.filter, h]

theorem hits_of_triggeredSink? {t : Half × Int} (h : m.triggeredSink? o = some t) (s : Stash) :
    m.hits o s = ((m.triggeredFlows o).map fun x => sourceHit x.2 x.1, s) := by
  obtain ⟨half, code⟩ := t
  obtain ⟨sink, hsink, htriggered⟩ := Option.bind_eq_some_iff.1 h
  have hkind : m.kinds.get? sink = some (.triggered half code) := by
    unfold KindTable.triggered? at htriggered
    split at htriggered
    · next hget =>
      cases htriggered
      exact hget
    · cases htriggered
  have hflows : (m.triggeredFlows o).map (fun x => sourceHit x.2 x.1) =
      m.triggeredHits o half code := by
    rw [triggeredFlows, h, triggeredHits]
    simp only [Option.bind_some]
    cases m.rules.get? code with
    | none => simp
    | some r =>
      dsimp only
      rw [kinds_meeting]
      induction o.sources.kinds with
      | nil => rfl
      | cons source sources ih =>
        rw [List.flatMap_cons, List.map_append, ih, List.filter_cons]
        by_cases haccepts : r.Accepts half.label o.sink source.2.1
        · simp [haccepts, Option.filter, sourceHit]
        · simp [haccepts, Option.filter]
  rw [hflows]
  simp only [hits, hsink, hkind]

/-- With loaded rules the triggered kind of every half is found. The triggered sinks of a check are,
one for one, those at the parameters that reach an open half. And whatever waits, the findings of a
check at triggered sinks are, one for one, what the accepted sources come to with the rules of the
sinks. -/
theorem check_triggered (hr : m.rules.LoadedIn m.kinds) :
    (∀ r ∈ m.rules.rules, ∀ sink ∈ RuleSet.halfKeys r, m.kinds.Triggers r.code sink) ∧
      ∀ (method : Method) (os : List Observation) (s : Stash),
        (∃ openings, ListsOnce (m.IsOpening os) openings ∧
          List.Forall₂ (fun x e => m.Opens x.1.1 x.2.1 x.2.2 e) openings
            (m.check method os s).1.triggered) ∧
        (m.placedFindings method os s).map Prod.snd = (m.check method os s).1.findings ∧
        ∃ flows, ListsOnce (m.IsTriggeredFlow os) flows ∧
          List.Forall₂ (fun x e => e.1 = x.1.2 ∧ m.Tells method x.1.1 x.2.1 x.2.2 e.2) flows
            ((m.placedFindings method os s).filter fun e =>
              (os[e.1]?.bind m.triggeredSink?).isSome) := by
  have hwell : m.rules.WellFormed := hr.loaded.wellFormed
  refine ⟨hr.triggers, fun method os s => ⟨?_, m.map_placedFindings method os s, ?_⟩⟩
  · have hopenings : ListsOnce (m.IsOpening os)
        (os.zipIdx.flatMap fun e => (m.openings (m.metLabels os) e.1).map (e, ·)) :=
      (ListsOnce.zipIdx os).pairs fun e => listsOnce_openings hr.loaded os e.1
    refine ⟨_, hopenings, ?_⟩
    have htriggered : (m.check method os s).1.triggered =
        os.zipIdx.flatMap fun e => m.triggeredSinks (m.metLabels os) e.1 := by
      rw [← List.flatMap_map, List.zipIdx_map_fst]
      rfl
    rw [htriggered]
    refine forall₂_flatMap fun e _ => ?_
    rw [List.forall₂_map_left_iff]
    exact openings_opened hr (m.metLabels os) e.1
  · have hflows : ListsOnce (m.IsTriggeredFlow os)
        (os.zipIdx.flatMap fun e => (m.triggeredFlows e.1).map (e, ·)) :=
      (ListsOnce.zipIdx os).pairs fun e => listsOnce_triggeredFlows hwell e.1
    refine ⟨_, hflows, tells_placedFindings (m := m)
      (p := fun n => (os[n]?.bind m.triggeredSink?).isSome) fun n o ho =>
        ⟨fun hp s => ?_, fun hp => ?_⟩⟩
    all_goals rw [ho, Option.bind_some] at hp
    · obtain ⟨t, ht⟩ := Option.isSome_iff_exists.1 hp
      rw [hits_of_triggeredSink? ht]
    · have hnone : m.triggeredSink? o = none := by simpa using hp
      simp [triggeredFlows, hnone]

def openLaunch : Observation :=
  { Observation.launch 4 2 with
    sources := ∅
    parameters := FrameSet.singleton (.ofArgument 1 [.field "intent"]) ∅ }

theorem check_triggered_launching :
    (launching.check .launching [openLaunch, .launch 3 0] ∅).1.triggered.map
        (fun e => (e.1, e.2.1.label)) = [(⟨.argument 1, [.field "intent"]⟩, .kind ⟨6⟩)] ∧
      (∃ openings, ListsOnce (launching.IsOpening [openLaunch, .launch 3 0]) openings ∧
        openings.length = 1) ∧
      ∃ flows, ListsOnce (launching.IsTriggeredFlow [.launch 6 2]) flows ∧ flows.length = 1 := by
  have hr : launching.rules.LoadedIn launching.kinds :=
    @RuleSet.LoadedIn.addAll ∅ _ [RuleSet.launchDeclaration] ∅ RuleSet.launchKinds (.empty ∅) rfl
  obtain ⟨-, hcheck⟩ := check_triggered hr
  obtain ⟨⟨openings, hopenings, hopened⟩, -, -⟩ := hcheck .launching [openLaunch, .launch 3 0] ∅
  obtain ⟨-, -, flows, hflows, htells⟩ := hcheck .launching [.launch 6 2] ∅
  exact ⟨by decide, ⟨openings, hopenings, hopened.length_eq.trans (by decide)⟩,
    flows, hflows, htells.length_eq.trans (by decide)⟩

end Matcher

end TaintFlow
