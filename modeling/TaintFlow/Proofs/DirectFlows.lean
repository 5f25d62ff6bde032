import TaintFlow.Proofs.ReorderedObservations

/-!
Flows to ordinary sinks. The index by source and sink lists every rule once
(`RuleSet.WellFormed.mem_rulesFor`), and a scan of the transforms finds those that a rule asks for
in their order. So a check finds each rule about an ordinary sink exactly once for every source that
it accepts. To say so, every finding goes with the place of its observation
(`Matcher.placedFindings`): those at ordinary sinks are, one for one, the sources and rules that
suit each other (`Matcher.check_direct`).
-/

namespace TaintFlow

/-! ### Exact lists -/

structure ListsOnce {α : Type} (P : α → Prop) (as : List α) : Prop where
  nodup : as.Nodup
  mem_iff : ∀ a, a ∈ as ↔ P a

namespace ListsOnce

variable {α β : Type} {P : α → Prop} {Q : α → β → Prop} {as : List α}

theorem congr {P' : α → Prop} (h : ListsOnce P as) (hP : ∀ a, P a ↔ P' a) : ListsOnce P' as :=
  ⟨h.nodup, fun a => (h.mem_iff a).trans (hP a)⟩

theorem filter (h : ListsOnce P as) (p : α → Bool) :
    ListsOnce (fun a => P a ∧ p a = true) (as.filter p) :=
  ⟨h.nodup.filter p, fun a => by rw [List.mem_filter, h.mem_iff]⟩

/-- If for every item the list of its partners is exact, so is the list of all pairs. -/
theorem pairs (h : ListsOnce P as) {f : α → List β} (hf : ∀ a, ListsOnce (Q a) (f a)) :
    ListsOnce (fun x => P x.1 ∧ Q x.1 x.2) (as.flatMap fun a => (f a).map (a, ·)) where
  nodup := by
    refine List.nodup_flatMap.2 ⟨fun a _ => (hf a).nodup.map fun _ _ h => (Prod.mk.inj h).2, ?_⟩
    refine h.nodup.imp fun {a a'} hne x hx hx' => hne ?_
    obtain ⟨_, -, rfl⟩ := List.mem_map.1 hx
    obtain ⟨_, -, heq⟩ := List.mem_map.1 hx'
    exact (congrArg Prod.fst heq).symm
  mem_iff x := by
    simp only [List.mem_flatMap, List.mem_map, h.mem_iff, (hf _).mem_iff]
    constructor
    · rintro ⟨a, ha, b, hb, rfl⟩
      exact ⟨ha, hb⟩
    · exact fun ⟨ha, hb⟩ => ⟨x.1, ha, x.2, hb, rfl⟩

theorem zipIdx (as : List α) : ListsOnce (fun e => as[e.2]? = some e.1) as.zipIdx where
  nodup := List.Nodup.of_map Prod.snd (by
    rw [List.zipIdx_map_snd]
    exact List.nodup_range')
  mem_iff _ := List.mem_zipIdx_iff_getElem?

end ListsOnce

/-! ### Rule sets -/

def Rule.Relates (r : Rule) (source sink : KindId) : Prop :=
  match r.flow with
  | .direct sources sinks => source ∈ sources ∧ sink ∈ sinks
  | .paired _ _ => False

namespace RuleSet

/-- The sets that adding and retaining rules lead to. -/
inductive Reached : RuleSet → Prop where
  | empty : Reached ∅
  | add {s s' : RuleSet} {r : Rule} (hs : Reached s) (h : s.add r = .ok s') : Reached s'
  | retain {s : RuleSet} (hs : Reached s) (keep : Rule → Bool) : Reached (s.retain keep)

theorem Reached.wellFormed {s : RuleSet} (hs : s.Reached) : s.WellFormed := by
  induction hs with
  | empty => exact wellFormed_empty
  | @add s s' r _ h ih =>
    unfold RuleSet.add at h
    split at h
    · cases h
    · next hget =>
      cases h
      exact ih.push hget
  | retain _ keep ih => exact ih.retain keep

theorem mem_sourceSinkKeys {r : Rule} {source sink : KindId} :
    (source, sink) ∈ sourceSinkKeys r ↔ r.Relates source sink := by
  unfold sourceSinkKeys Rule.Relates
  cases r.flow with
  | direct sources sinks =>
    simp only [List.mem_flatMap, List.mem_map, Prod.mk.injEq, OrdSet.mem_toList]
    constructor
    · rintro ⟨_, hsource, _, hsink, rfl, rfl⟩
      exact ⟨hsource, hsink⟩
    · rintro ⟨hsource, hsink⟩
      exact ⟨source, hsource, sink, hsink, rfl, rfl⟩
  | paired _ _ => simp

theorem nodup_sourceSinkKeys (r : Rule) : (sourceSinkKeys r).Nodup := by
  unfold sourceSinkKeys
  split
  · next sources sinks _ => exact sources.nodup_toList.product sinks.nodup_toList
  · exact List.nodup_nil

theorem nodup_halfKeys (r : Rule) : (halfKeys r).Nodup := by
  unfold halfKeys
  split
  · exact List.nodup_nil
  · exact OrdSet.nodup_toList _

section

variable {κ : Type} [DecidableEq κ] {keysOf : Rule → List κ} (h : ∀ r, (keysOf r).Nodup)

include h

theorem under_eq_filter (rs : List Rule) (k : κ) :
    under keysOf rs k = rs.filter fun r => decide (k ∈ keysOf r) := by
  induction rs with
  | nil => rfl
  | cons r rs ih =>
    have hunder : under keysOf (r :: rs) k =
        ((keysOf r).filter (· = k)).map (fun _ => r) ++ under keysOf rs k := rfl
    rw [hunder, ih, List.filter_cons]
    by_cases hk : k ∈ keysOf r
    · rw [Matcher.filter_eq_singleton (h r) hk (by simp), if_pos (decide_eq_true hk)]
      rfl
    · have hnone : (keysOf r).filter (· = k) = [] := by
        simp only [List.filter_eq_nil_iff, decide_eq_true_eq]
        exact fun k' hk' heq => hk (heq ▸ hk')
      rw [hnone, if_neg (by simpa using hk)]
      rfl

/-- If no rule has a key twice, every rule with the key is under it once. -/
theorem listsOnce_under {rs : List Rule} (hrs : rs.Nodup) (k : κ) :
    ListsOnce (fun r => r ∈ rs ∧ k ∈ keysOf r) (under keysOf rs k) := by
  have hall : ListsOnce (· ∈ rs) rs := ⟨hrs, fun _ => Iff.rfl⟩
  rw [under_eq_filter h]
  exact (hall.filter _).congr fun r => and_congr_right' decide_eq_true_iff

end

namespace WellFormed

variable {s : RuleSet} (hs : s.WellFormed)

include hs

/-- The rules for a source and a sink are those about them, each once. -/
theorem listsOnce_rulesFor (source sink : KindId) :
    ListsOnce (fun r => r ∈ s.rules ∧ r.Relates source sink) (s.rulesFor source sink) := by
  conv => arg 2; rw [hs.built, rulesFor_ofRules]
  exact (listsOnce_under nodup_sourceSinkKeys hs.codes.of_map _).congr fun r =>
    and_congr_right' mem_sourceSinkKeys

/-- The rules for a half are those that have it among their sinks, each once. -/
theorem listsOnce_rulesForHalf (sink : KindId) :
    ListsOnce (fun r => r ∈ s.rules ∧ sink ∈ halfKeys r) (s.rulesForHalf sink) := by
  conv => arg 2; rw [hs.built, rulesForHalf_ofRules]
  exact listsOnce_under nodup_halfKeys hs.codes.of_map sink

end WellFormed

end RuleSet

/-! ### Findings and where they are found -/

def Finding.isDeferred : Finding → Bool
  | issue _ => false
  | deferred _ => true

def Observation.HasSource (o : Observation) (source : KindId × Frame × FrameInfo) : Prop :=
  o.sources.get? source.2.1 = some source.2.2 ∧ source.2.1.kind? = some source.1

theorem listsOnce_kinds (o : Observation) : ListsOnce o.HasSource o.sources.kinds where
  nodup := by
    have hentries : o.sources.entries.Nodup := .of_map Prod.fst o.sources.nodup_keys
    refine hentries.filterMap fun e e' x hx hx' => ?_
    obtain ⟨_, -, rfl⟩ := Option.map_eq_some_iff.1 hx
    obtain ⟨_, -, heq⟩ := Option.map_eq_some_iff.1 hx'
    exact (Prod.mk.inj heq).2.symm
  mem_iff _ := FrameSet.mem_kinds.trans (and_congr_left' OrdMap.get?_eq_some_iff.symm)

namespace Matcher

section

variable {α β : Type} (step : α → Stash → List β × Stash)

def placed (e : α × Nat) (s : Stash) : List (Nat × β) × Stash :=
  ((step e.1 s).1.map (e.2, ·), (step e.1 s).2)

theorem inTurn_placed (as : List α) (n : Nat) (s : Stash) :
    (inTurn (placed step) (as.zipIdx n) s).1.map Prod.snd = (inTurn step as s).1 := by
  induction as generalizing n s with
  | nil => rfl
  | cons a as ih =>
    have hfirst : ((step a s).1.map (n, ·)).map Prod.snd = (step a s).1 := by
      rw [List.map_map]
      exact List.map_id _
    show ((step a s).1.map (n, ·) ++ _).map Prod.snd = (step a s).1 ++ _
    rw [List.map_append, hfirst, ih]

variable {step}

theorem filter_placed (p : Nat → Bool) (e : α × Nat) (s : Stash) :
    (placed step e s).1.filter (fun x => p x.1) =
      if p e.2 then (step e.1 s).1.map (e.2, ·) else [] := by
  have hfilter (h : p e.2 = false) (xs : List β) : (xs.map (e.2, ·)).filter (fun x => p x.1) = [] :=
    List.filter_eq_nil_iff.2 fun x hx => by
      obtain ⟨_, -, rfl⟩ := List.mem_map.1 hx
      simp [h]
  cases h : p e.2 with
  | true =>
    refine List.filter_eq_self.2 fun x hx => ?_
    obtain ⟨_, -, rfl⟩ := List.mem_map.1 hx
    exact h
  | false => exact hfilter h _

/-- Results that do not depend on the stash come item by item. -/
theorem inTurn_filter_eq {as : List α} {q : β → Bool} {g : α → List β}
    (h : ∀ a ∈ as, ∀ s, (step a s).1.filter q = g a) (s : Stash) :
    (inTurn step as s).1.filter q = as.flatMap g := by
  induction as generalizing s with
  | nil => rfl
  | cons a as ih =>
    show ((step a s).1 ++ (inTurn step as (step a s).2).1).filter q = _
    rw [List.filter_append, h a List.mem_cons_self, List.flatMap_cons,
      ih fun b hb => h b (List.mem_cons_of_mem a hb)]

end

variable (m : Matcher)

def placedFindings (method : Method) (os : List Observation) (s : Stash) : List (Nat × Finding) :=
  (inTurn (placed (m.findings method)) os.zipIdx (s.clear method.id)).1

theorem map_placedFindings (method : Method) (os : List Observation) (s : Stash) :
    (m.placedFindings method os s).map Prod.snd = (m.check method os s).1.findings :=
  inTurn_placed (m.findings method) os 0 (s.clear method.id)

def sourceHit (r : Rule) (source : KindId × Frame × FrameInfo) : Hit := ⟨r, [(source.1, source.2.2)]⟩

/-- A finding is what one source of an observation comes to with a rule: it is deferred if the rule
asks for an effect, its one trace is that of the source and then that of the sink, and it has the
features of both. -/
structure Tells (method : Method) (o : Observation) (source : KindId × Frame × FrameInfo) (r : Rule)
    (x : Finding) : Prop where
  rule : x.reported.ruleCode = r.code
  call : x.reported.method = method.name ∧ x.reported.position = o.site.position
  kind : x.reported.sourceKinds.toList = [m.kinds.name source.1]
  deferred : x.isDeferred = r.effectSources.isSome
  trace : x.reported.traces.toList = [source.2.2.trace ++ o.info.trace]
  features : ∀ feature, feature ∈ x.reported.features ↔
    feature ∈ source.2.2.features ∨ feature ∈ o.info.features

variable {m}

theorem isDeferred_finding (method : Method) (o : Observation) (h : Hit) :
    (m.finding method o h).isDeferred = h.rule.effectSources.isSome := by
  unfold finding
  cases h.rule.effectSources <;> rfl

theorem tells_finding (method : Method) (o : Observation) (source : KindId × Frame × FrameInfo)
    (r : Rule) : m.Tells method o source r (m.finding method o (sourceHit r source)) := by
  have hissue := reported_finding (m := m) method o (sourceHit r source)
  refine ⟨?_, ?_, ?_, isDeferred_finding method o _, ?_, fun feature => ?_⟩
  all_goals rw [hissue]
  · rfl
  · exact ⟨rfl, rfl⟩
  · rfl
  · show [([(source.1, source.2.2)].flatMap fun s => s.2.trace) ++ o.info.trace] = _
    rw [List.flatMap_singleton]
  · exact OrdSet.mem_union.trans or_comm

/-- Where the observations at some places have hits by one source each, whatever waits, and those at
other places are given none, the findings at the places are what these hits come to. -/
theorem tells_placedFindings {method : Method} {os : List Observation} {s : Stash} {p : Nat → Bool}
    {flows : Observation → List ((KindId × Frame × FrameInfo) × Rule)}
    (h : ∀ n o, os[n]? = some o →
      (p n = true → ∀ s, (m.hits o s).1 = (flows o).map fun x => sourceHit x.2 x.1) ∧
        (p n = false → flows o = [])) :
    List.Forall₂ (fun x e => e.1 = x.1.2 ∧ m.Tells method x.1.1 x.2.1 x.2.2 e.2)
      (os.zipIdx.flatMap fun e => (flows e.1).map (e, ·))
      ((m.placedFindings method os s).filter fun e => p e.1) := by
  have hstep : ∀ e ∈ os.zipIdx, ∀ s,
      (placed (m.findings method) e s).1.filter (fun x => p x.1) =
        ((flows e.1).map (e, ·)).map
          fun x => (x.1.2, m.finding method x.1.1 (sourceHit x.2.2 x.2.1)) := by
    rintro ⟨o, n⟩ he s
    obtain ⟨hhits, hnone⟩ := h n o (List.mem_zipIdx_iff_getElem?.1 he)
    rw [filter_placed]
    cases hp : p n with
    | true =>
      have hfindings : (m.findings method o s).1 = (m.hits o s).1.map (m.finding method o) := rfl
      rw [if_pos rfl, hfindings, hhits hp, List.map_map, List.map_map, List.map_map]
      rfl
    | false =>
      rw [hnone hp]
      rfl
  rw [placedFindings, inTurn_filter_eq hstep, ← List.map_flatMap, List.forall₂_map_right_iff]
  exact List.forall₂_same.2 fun x _ => ⟨rfl, tells_finding method x.1.1 x.2.1 x.2.2⟩

/-! ### Ordinary sinks -/

variable (m)

def namedSink? (o : Observation) : Option KindId :=
  o.sink.kind?.filter fun sink =>
    match m.kinds.get? sink with
    | some (.named _) => true
    | _ => false

/-- A source meets a rule at the ordinary sink that is observed: the rule is about them, and the
transforms that it asks for, if any, come in their order among those of the source and then those
of the sink. -/
def MeetsDirect (o : Observation) (source : KindId × Frame × FrameInfo) (r : Rule) : Prop :=
  (r ∈ m.rules.rules ∧ ∃ sink ∈ m.namedSink? o, r.Relates source.1 sink) ∧
    ∀ required ∈ r.transforms, required.Sublist (source.2.1.transforms ++ o.sink.transforms)

def IsDirectFlow (os : List Observation)
    (x : (Observation × Nat) × (KindId × Frame × FrameInfo) × Rule) : Prop :=
  os[x.1.2]? = some x.1.1 ∧ x.1.1.HasSource x.2.1 ∧ m.MeetsDirect x.1.1 x.2.1 x.2.2

def directFlows (o : Observation) : List ((KindId × Frame × FrameInfo) × Rule) :=
  o.sources.kinds.flatMap fun source =>
    (((m.namedSink? o).toList.flatMap (m.rules.rulesFor source.1 ·)).filter
      (suits · source.2.1 o)).map (source, ·)

variable {m} {o : Observation} {sink : KindId}

theorem hits_of_namedSink? (h : m.namedSink? o = some sink) (s : Stash) :
    m.hits o s = ((m.directFlows o).map fun x => sourceHit x.2 x.1, s) := by
  have hflows : (m.directFlows o).map (fun x => sourceHit x.2 x.1) = m.directHits o sink := by
    rw [directFlows, h, List.map_flatMap]
    simp [directHits, sourceHit, Function.comp_def]
  obtain ⟨hsink, hnamed⟩ := Option.filter_eq_some_iff.1 h
  rw [hflows]
  unfold hits
  rw [hsink]
  dsimp only at hnamed ⊢
  split at hnamed
  · next hkind => rw [hkind]
  · cases hnamed

theorem listsOnce_directFlows (hr : m.rules.WellFormed) (o : Observation) :
    ListsOnce (fun x => o.HasSource x.1 ∧ m.MeetsDirect o x.1 x.2) (m.directFlows o) := by
  refine (listsOnce_kinds o).pairs fun source => ?_
  have hrules : ListsOnce (fun r => r ∈ m.rules.rules ∧ ∃ sink ∈ m.namedSink? o,
      r.Relates source.1 sink) ((m.namedSink? o).toList.flatMap (m.rules.rulesFor source.1 ·)) := by
    cases m.namedSink? o with
    | none => exact ⟨List.nodup_nil, by simp⟩
    | some sink =>
      rw [Option.toList_some, List.flatMap_singleton]
      exact (hr.listsOnce_rulesFor source.1 sink).congr (by simp)
  exact (hrules.filter _).congr fun r => and_congr_right' Rule.acceptsTransforms_iff

/-- Whatever waits, the findings of a check at ordinary sinks are, one for one, what the sources
that the observations have come to with the rules that they meet. -/
theorem check_direct (hr : m.rules.Reached) (method : Method) (os : List Observation) (s : Stash) :
    (m.placedFindings method os s).map Prod.snd = (m.check method os s).1.findings ∧
      ∃ flows, ListsOnce (m.IsDirectFlow os) flows ∧
        List.Forall₂ (fun x e => e.1 = x.1.2 ∧ m.Tells method x.1.1 x.2.1 x.2.2 e.2) flows
          ((m.placedFindings method os s).filter fun e => (os[e.1]?.bind m.namedSink?).isSome) := by
  have hflows : ListsOnce (m.IsDirectFlow os)
      (os.zipIdx.flatMap fun e => (m.directFlows e.1).map (e, ·)) :=
    (ListsOnce.zipIdx os).pairs fun e => listsOnce_directFlows hr.wellFormed e.1
  refine ⟨m.map_placedFindings method os s, _, hflows, ?_⟩
  refine tells_placedFindings (m := m) (p := fun n => (os[n]?.bind m.namedSink?).isSome)
    fun n o ho => ⟨fun hp s => ?_, fun hp => ?_⟩
  all_goals rw [ho, Option.bind_some] at hp
  · obtain ⟨sink, hsink⟩ := Option.isSome_iff_exists.1 hp
    rw [hits_of_namedSink? hsink]
  · have hnone : m.namedSink? o = none := by simpa using hp
    simp [directFlows, hnone]

def signedRule : Rule where
  name := "signed"
  code := 1
  description := ""
  flow := .direct (OrdSet.ofList [⟨0⟩]) (OrdSet.ofList [⟨1⟩])
  transforms := some [⟨2⟩, ⟨3⟩]
  effectSources := none

def signing : Matcher :=
  ⟨(∅ : RuleSet).push signedRule,
    ⟨[.named "Secret", .named "Log", .named "Encode", .named "Sign"]⟩, 8⟩

def loggedAfter (transforms : List KindId) : Observation where
  site := ⟨⟨0⟩, 0⟩
  callee := "log"
  port := ⟨.argument 0, []⟩
  sink := ⟨.kind ⟨1⟩, transforms, ∅⟩
  info := ∅
  sources := FrameSet.singleton ⟨.kind ⟨0⟩, [⟨2⟩], ∅⟩ ∅
  parameters := ∅

theorem check_direct_signing :
    (signing.check .launching [loggedAfter [⟨0⟩], loggedAfter [⟨0⟩, ⟨3⟩]] ∅).1.issues.length = 1 ∧
      ∃ flows, ListsOnce (signing.IsDirectFlow [loggedAfter [⟨0⟩], loggedAfter [⟨0⟩, ⟨3⟩]]) flows ∧
        flows.length = 1 := by
  have hr : signing.rules.Reached := @RuleSet.Reached.add ∅ _ signedRule .empty rfl
  obtain ⟨-, flows, hflows, htells⟩ :=
    check_direct hr .launching [loggedAfter [⟨0⟩], loggedAfter [⟨0⟩, ⟨3⟩]] ∅
  exact ⟨by decide, flows, hflows, htells.length_eq.trans (by decide)⟩

end Matcher

end TaintFlow
