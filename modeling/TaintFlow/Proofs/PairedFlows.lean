import TaintFlow.Proofs.Hits
import TaintFlow.Proofs.MeetingHalves

/-!
When paired flows are found. A label of a rule is met at a call if a source that the rule accepts
for the label reaches the half with this label (`Matcher.Met`). Whatever the order of the
observations, and whatever waited before, a check has an issue of the rule at the call if and only
if both labels are met, and every such issue names a kind for each; if one label alone is met, all
its sources wait (`Matcher.check_paired`).
-/

namespace TaintFlow

namespace Rule

/-- A scan leaves nothing if and only if the transforms asked for come in their order. -/
theorem missing_eq_nil_iff {required transforms : List KindId} :
    missing required transforms = [] ↔ required.Sublist transforms := by
  induction transforms generalizing required with
  | nil => exact List.sublist_nil.symm
  | cons transform transforms ih =>
    cases required with
    | nil => exact iff_of_true (ih.2 (List.nil_sublist _)) (List.nil_sublist _)
    | cons next required =>
      have hscan : missing (next :: required) (transform :: transforms) =
          missing (if next = transform then required else next :: required) transforms := by
        simp [missing]
      rw [hscan, ih]
      split
      · next heq =>
        rw [heq, List.cons_sublist_cons]
      · next hne =>
        exact ⟨fun h => h.cons transform, fun h => h.of_cons_of_ne hne⟩

theorem acceptsTransforms_iff {r : Rule} {transforms : List KindId} :
    r.acceptsTransforms transforms = true ↔
      ∀ required ∈ r.transforms, required.Sublist transforms := by
  simp only [acceptsTransforms, Option.all_eq_true, List.isEmpty_iff, missing_eq_nil_iff,
    Option.mem_def]

end Rule

/-- A rule accepts a source for a label where it reaches a sink: the kind of the source is one of
the label, and the transforms of the source, followed by those of the sink, contain in their order
the transforms that the rule asks for. -/
def Rule.Accepts (r : Rule) (label : String) (sink f : Frame) : Prop :=
  (∃ accepted ∈ r.labelSources? label, ∃ kind ∈ f.kind?, kind ∈ accepted) ∧
    ∀ required ∈ r.transforms, required.Sublist (f.transforms ++ sink.transforms)

instance (r : Rule) (label : String) (sink f : Frame) : Decidable (r.Accepts label sink f) :=
  inferInstanceAs (Decidable (_ ∧ _))

namespace Matcher

variable (m : Matcher)

def IsHalf (r : Rule) (label : String) (o : Observation) : Prop :=
  ∃ e ∈ m.half? o, e.1 ∈ RuleSet.halfKeys r ∧ e.2.label = label

instance (r : Rule) (label : String) (o : Observation) : Decidable (m.IsHalf r label o) :=
  inferInstanceAs (Decidable (∃ e ∈ m.half? o, e.1 ∈ RuleSet.halfKeys r ∧ e.2.label = label))

def Matches (r : Rule) (label : String) (o : Observation) (f : Frame) : Prop :=
  m.IsHalf r label o ∧ o.sources.Has f ∧ r.Accepts label o.sink f

def Met (r : Rule) (label : String) (site : CallSite) (os : List Observation) : Prop :=
  ∃ o ∈ os, o.site = site ∧ ∃ f, m.Matches r label o f

def matching (r : Rule) (label : String) (site : CallSite) (os : List Observation) : FrameSet :=
  os.foldl
    (fun frames o =>
      if o.site = site ∧ m.IsHalf r label o then
        frames.join (OrdMap.filter (fun f _ => r.Accepts label o.sink f) o.sources)
      else frames)
    ∅

variable {m} {r : Rule} {label : String} {site : CallSite} {o : Observation} {f : Frame}
  {os : List Observation}

/-! ### The half of an observation -/

theorem meeting_eq {accepted : OrdSet KindId} (h : r.labelSources? label = some accepted) :
    meeting r accepted o = OrdMap.filter (fun f _ => r.Accepts label o.sink f) o.sources := by
  have htest (f : Frame) : (f.kind?.any accepted.contains && suits r f o) =
      decide (r.Accepts label o.sink f) := by
    rw [Bool.eq_iff_iff, Bool.and_eq_true, decide_eq_true_eq]
    refine and_congr ?_ ?_
    · simp only [Option.any_eq_true, h, Option.mem_def, Option.some.injEq, exists_eq_left']
      rfl
    · exact Rule.acceptsTransforms_iff
  simp only [meeting, htest]

theorem IsHalf.label_eq {label' : String} (h : m.IsHalf r label o) (h' : m.IsHalf r label' o) :
    label = label' := by
  obtain ⟨e, he, -, rfl⟩ := h
  obtain ⟨e', he', -, rfl⟩ := h'
  rw [Option.mem_unique he he']

theorem has_accepted :
    FrameSet.Has (OrdMap.filter (fun f _ => r.Accepts label o.sink f) o.sources) f ↔
      o.sources.Has f ∧ r.Accepts label o.sink f := by
  rw [FrameSet.has_filter fun _ _ => rfl, decide_eq_true_eq]

section

variable {sources : OrdMap String (OrdSet KindId)} {sinks : OrdSet KindId} {first second : String}

/-- The half that is met has the accepted sources of its label, of which there are some. -/
theorem halfOf?_eq_some {h : HalfHit} (hh : m.halfOf? r o = some h) :
    m.IsHalf r h.label o ∧
      h.sources = OrdMap.filter (fun f _ => r.Accepts h.label o.sink f) o.sources ∧
      ∃ f, h.sources.Has f := by
  obtain ⟨⟨sink, half⟩, hhalf, hh⟩ := Option.bind_eq_some_iff.1 hh
  dsimp only at hh
  split at hh
  · next hsink =>
    obtain ⟨accepted, haccepted, hh⟩ := Option.bind_eq_some_iff.1 hh
    obtain ⟨other, -, hh⟩ := Option.bind_eq_some_iff.1 hh
    simp only at hh
    split at hh
    · cases hh
    · next hempty =>
      cases hh
      refine ⟨⟨_, hhalf, hsink, rfl⟩, meeting_eq haccepted, ?_⟩
      by_contra hnone
      refine hempty (OrdMap.isEmpty_iff.2 fun f => ?_)
      by_contra hsome
      exact hnone ⟨f, Option.ne_none_iff_exists'.1 hsome⟩
  · cases hh

/-- An accepted source makes an observation meet the half of its label. -/
theorem Matches.exists_half (hflow : r.flow = .paired sources sinks)
    (hkeys : sources.keys = [first, second]) (h : m.Matches r label o f) :
    ∃ half, m.halfOf? r o = some half ∧ half.label = label ∧ half.sources.Has f := by
  obtain ⟨⟨⟨sink, half⟩, hhalf, hsink, rfl⟩, hf, haccepts⟩ := h
  obtain ⟨accepted, haccepted, -⟩ := haccepts.1
  obtain ⟨other, hother⟩ : ∃ other, r.otherLabel? half.label = some other := by
    obtain ⟨hsecond, hfirst⟩ := Rule.otherLabel?_of_keys hflow hkeys
    rcases Rule.label_of_keys hflow hkeys haccepted with hlabel | hlabel
    · exact ⟨second, hlabel ▸ hsecond⟩
    · exact ⟨first, hlabel ▸ hfirst⟩
  have hhas : (meeting r accepted o).Has f := meeting_eq haccepted ▸ has_accepted.2 ⟨hf, haccepts⟩
  have hempty : ¬ (OrdMap.isEmpty (meeting r accepted o) = true) := fun h =>
    FrameSet.not_has_of_isEmpty h hhas
  refine ⟨⟨r, half.label, other, meeting r accepted o⟩, ?_, rfl, hhas⟩
  have hhit : halfHit? o half r = some ⟨r, half.label, other, meeting r accepted o⟩ :=
    Option.bind_eq_some_iff.2 ⟨accepted, haccepted,
      Option.bind_eq_some_iff.2 ⟨other, hother, if_neg hempty⟩⟩
  exact Option.bind_eq_some_iff.2 ⟨_, hhalf, (if_pos hsink).trans hhit⟩

end

/-! ### The halves of some observations -/

theorem mem_halvesAt {e : Observation × String × FrameSet} :
    e ∈ m.halvesAt r site os ↔
      ∃ o ∈ os, o.site = site ∧ ∃ h, m.halfOf? r o = some h ∧ (o, h.label, h.sources) = e := by
  simp only [halvesAt, List.mem_filterMap]
  refine exists_congr fun o => and_congr_right fun _ => ?_
  by_cases hsite : o.site = site <;> simp [hsite]

theorem halvesAt_append (os os' : List Observation) :
    m.halvesAt r site (os ++ os') = m.halvesAt r site os ++ m.halvesAt r site os' :=
  List.filterMap_append

section

variable {sources : OrdMap String (OrdSet KindId)} {sinks : OrdSet KindId} {first second : String}
  (hflow : r.flow = .paired sources sinks) (hkeys : sources.keys = [first, second])

include hflow hkeys

/-- The halves with a label have the sources that match it. -/
theorem exists_half_iff :
    (∃ e ∈ m.halvesAt r site os, e.2.1 = label ∧ e.2.2.Has f) ↔
      ∃ o ∈ os, o.site = site ∧ m.Matches r label o f := by
  constructor
  · rintro ⟨_, he, rfl, hf⟩
    obtain ⟨o, ho, hsite, h, hh, rfl⟩ := mem_halvesAt.1 he
    obtain ⟨hhalf, hsources, -⟩ := halfOf?_eq_some hh
    exact ⟨o, ho, hsite, hhalf, has_accepted.1 (hsources ▸ hf)⟩
  · rintro ⟨o, ho, hsite, hmatches⟩
    obtain ⟨h, hh, hlabel, hf⟩ := hmatches.exists_half hflow hkeys
    exact ⟨_, mem_halvesAt.2 ⟨o, ho, hsite, h, hh, rfl⟩, hlabel, hf⟩

/-- A label is met if and only if there is a half with it. -/
theorem met_iff : m.Met r label site os ↔ ∃ e ∈ m.halvesAt r site os, e.2.1 = label := by
  constructor
  · rintro ⟨o, ho, hsite, f, hmatches⟩
    obtain ⟨e, he, hlabel, -⟩ := (exists_half_iff hflow hkeys).2 ⟨o, ho, hsite, hmatches⟩
    exact ⟨e, he, hlabel⟩
  · rintro ⟨_, he, rfl⟩
    obtain ⟨o, ho, hsite, h, hh, rfl⟩ := mem_halvesAt.1 he
    obtain ⟨hhalf, hsources, f, hf⟩ := halfOf?_eq_some hh
    exact ⟨o, ho, hsite, f, hhalf, has_accepted.1 (hsources ▸ hf)⟩

theorem label_of_mem_halvesAt {e : Observation × String × FrameSet}
    (he : e ∈ m.halvesAt r site os) : e.2.1 = first ∨ e.2.1 = second := by
  obtain ⟨o, -, -, h, hh, rfl⟩ := mem_halvesAt.1 he
  obtain ⟨-, hlabels⟩ := m.labels_of_halfOf? hflow hkeys hh
  exact hlabels.imp And.left And.left

/-- Where all halves have one label, their sources together are the ones that match it. -/
theorem foldl_halvesAt (h : ∀ e ∈ m.halvesAt r site os, e.2.1 = label) :
    ((m.halvesAt r site os).map fun e => e.2.2).foldl FrameSet.join ∅ =
      m.matching r label site os := by
  unfold matching
  generalize (∅ : FrameSet) = joined
  induction os generalizing joined with
  | nil => rfl
  | cons o os ih =>
    have hhalves : m.halvesAt r site (o :: os) = m.halvesAt r site [o] ++ m.halvesAt r site os :=
      halvesAt_append [o] os
    rw [hhalves] at h ⊢
    obtain ⟨hfirst, hrest⟩ := List.forall_mem_append.1 h
    rw [List.map_append, List.foldl_append, List.foldl_cons, ih hrest]
    congr 1
    by_cases hsite : o.site = site
    · cases hh : m.halfOf? r o with
      | none =>
        have hnone : m.halvesAt r site [o] = [] := by simp [halvesAt, hh]
        rw [hnone]
        split
        · next hhalf =>
          refine (FrameSet.join_of_not_has fun f hf => ?_).symm
          obtain ⟨hf, haccepts⟩ := has_accepted.1 hf
          have hmatches : m.Matches r label o f := ⟨hhalf.2, hf, haccepts⟩
          obtain ⟨half, hhalf, -⟩ := hmatches.exists_half hflow hkeys
          rw [hh] at hhalf
          cases hhalf
        · rfl
      | some half =>
        have hone : m.halvesAt r site [o] = [(o, half.label, half.sources)] := by
          simp [halvesAt, hsite, hh]
        rw [hone] at hfirst ⊢
        obtain ⟨hhalf, hsources, -⟩ := halfOf?_eq_some hh
        obtain rfl : half.label = label := hfirst _ List.mem_cons_self
        rw [if_pos ⟨hsite, hhalf⟩, ← hsources]
        rfl
    · simp [halvesAt, hsite]

end

/-! ### Pairs and what waits -/

theorem mem_of_mem_hitsInTurn {s : Stash} {e : Observation × Hit}
    (he : e ∈ (m.hitsInTurn os s).1) : e.1 ∈ os := by
  obtain ⟨o, ho, t, he⟩ := exists_of_mem_inTurn he
  obtain ⟨_, -, rfl⟩ := List.mem_map.1 he
  exact ho

/-- The kinds that the issue of two halves names are those of their sources. -/
theorem mem_sourceKinds_pairHit {method : Method} {pair : FrameSet × FrameSet} {name : String} :
    name ∈ (m.issue method o (pairHit r pair)).sourceKinds ↔
      ∃ f kind, (pair.1.Has f ∨ pair.2.Has f) ∧ f.kind? = some kind ∧ m.kinds.name kind = name := by
  have hsources {kind : KindId} : (∃ info, (kind, info) ∈ (pairHit r pair).sources) ↔
      ∃ f, (pair.1.Has f ∨ pair.2.Has f) ∧ f.kind? = some kind := by
    simp only [pairHit, List.mem_map, List.mem_append, Prod.exists, FrameSet.mem_kinds,
      FrameSet.has_iff_mem, Prod.mk.injEq]
    constructor
    · rintro ⟨info, id, f, info', h, rfl, rfl⟩
      exact ⟨f, h.imp (fun h => ⟨_, h.1⟩) (fun h => ⟨_, h.1⟩), h.elim And.right And.right⟩
    · rintro ⟨f, ⟨info, h⟩ | ⟨info, h⟩, hkind⟩
      · exact ⟨info, kind, f, info, .inl ⟨h, hkind⟩, rfl, rfl⟩
      · exact ⟨info, kind, f, info, .inr ⟨h, hkind⟩, rfl, rfl⟩
  rw [issue, OrdSet.mem_ofList, List.mem_map]
  constructor
  · rintro ⟨source, hsource, rfl⟩
    obtain ⟨f, hf, hkind⟩ := hsources.1 ⟨source.2, hsource⟩
    exact ⟨f, source.1, hf, hkind, rfl⟩
  · rintro ⟨f, kind, hf, hkind, rfl⟩
    obtain ⟨info, hsource⟩ := hsources.2 ⟨f, hf, hkind⟩
    exact ⟨(kind, info), hsource, rfl⟩

section

variable (hr : m.rules.Loaded) (hmem : r ∈ m.rules.rules)
  {sources : OrdMap String (OrdSet KindId)} {sinks : OrdSet KindId} {first second : String}
  (hflow : r.flow = .paired sources sinks) (hkeys : sources.keys = [first, second])
  {method : Method} (hos : ∀ o ∈ os, o.site.method = method.id)

include hr hmem hflow hkeys hos

/-- The hits of a check that are of two halves of a rule at a call. -/
theorem mem_pairs_iff (s : Stash) (site : CallSite) (e : Observation × Hit) :
    e ∈ (m.hitsInTurn os (s.clear method.id)).1 ∧ m.isPairAt r site e.1 e.2 = true ↔
      ∃ p ∈ (meetAll none (m.halvesAt r site os)).1, (p.1, pairHit r p.2) = e := by
  have hfilter : e ∈ (m.hitsInTurn os (s.clear method.id)).1.filter
      (fun e => m.isPairAt r site e.1 e.2) ↔
        e ∈ (m.hitsInTurn os (s.clear method.id)).1 ∧ m.isPairAt r site e.1 e.2 = true :=
    List.mem_filter
  rw [← hfilter, ← List.mem_map]
  by_cases hsite : site.method = method.id
  · have hwaits : (s.clear method.id).Waits r.code site none :=
      hsite ▸ Stash.waits_clear s r.code site
    rw [(m.hitsInTurn_waits hflow hkeys hr.wellFormed hmem os hwaits fun _ _ h => by cases h).1]
  · -- no observation is at a call of another method
    have hnone (o : Observation) (ho : o ∈ os) : o.site ≠ site := fun h => hsite (h ▸ hos o ho)
    have hhalves : m.halvesAt r site os = [] :=
      List.filterMap_eq_nil_iff.2 fun o ho => if_neg (hnone o ho)
    rw [hhalves, List.filter_eq_nil_iff.2]
    · rfl
    · intro e he
      simp [isPairAt, hnone e.1 (mem_of_mem_hitsInTurn he)]

omit hos in
/-- What a check leaves waiting for a rule at a call of the method. -/
theorem check_waits (s : Stash) (position : Nat) :
    (m.check method os s).2.Waits r.code ⟨method.id, position⟩
      (meetAll none (m.halvesAt r ⟨method.id, position⟩ os)).2 := by
  have hstash : (m.check method os s).2 = (m.hitsInTurn os (s.clear method.id)).2 :=
    congrArg Prod.snd (m.inTurn_findings method os (s.clear method.id))
  rw [hstash]
  exact (m.hitsInTurn_waits hflow hkeys hr.wellFormed hmem os
    (Stash.waits_clear s r.code ⟨method.id, position⟩) fun _ _ h => by cases h).2

/-- There is such a hit if and only if both labels of the rule are met. -/
theorem exists_pair_iff (s : Stash) (site : CallSite) :
    (∃ e ∈ (m.hitsInTurn os (s.clear method.id)).1, m.isPairAt r site e.1 e.2 = true) ↔
      m.Met r first site os ∧ m.Met r second site os := by
  have hexists : (∃ e ∈ (m.hitsInTurn os (s.clear method.id)).1,
      m.isPairAt r site e.1 e.2 = true) ↔ (meetAll none (m.halvesAt r site os)).1 ≠ [] := by
    simp only [mem_pairs_iff hr hmem hflow hkeys hos, ne_eq, List.eq_nil_iff_forall_not_mem]
    push Not
    exact ⟨fun ⟨_, p, hp, _⟩ => ⟨p, hp⟩, fun ⟨p, hp⟩ => ⟨_, p, hp, rfl⟩⟩
  rw [hexists, meetAll_ne_nil_iff, met_iff hflow hkeys, met_iff hflow hkeys]
  constructor
  · rintro ⟨e, he, e', he', hne⟩
    rcases label_of_mem_halvesAt hflow hkeys he with hlabel | hlabel <;>
      rcases label_of_mem_halvesAt hflow hkeys he' with hlabel' | hlabel'
    · exact absurd (hlabel.trans hlabel'.symm) hne
    · exact ⟨⟨e, he, hlabel⟩, e', he', hlabel'⟩
    · exact ⟨⟨e', he', hlabel'⟩, e, he, hlabel⟩
    · exact absurd (hlabel.trans hlabel'.symm) hne
  · rintro ⟨⟨e, he, hfirst⟩, e', he', hsecond⟩
    exact ⟨e, he, e', he', hfirst ▸ hsecond ▸ Rule.ne_of_keys hkeys⟩

omit hr hmem hos in
/-- The issue of a pair names for either label the kind of a source that matches it. -/
theorem exists_named (site : CallSite) {p : Observation × FrameSet × FrameSet}
    (hp : p ∈ (meetAll none (m.halvesAt r site os)).1) (hlabel : label = first ∨ label = second) :
    ∃ o ∈ os, o.site = site ∧ ∃ f, m.Matches r label o f ∧ ∃ kind, f.kind? = some kind ∧
      m.kinds.name kind ∈ (m.issue method p.1 (pairHit r p.2)).sourceKinds := by
  obtain ⟨x, hx, x', hx', hne, -, hown, hother⟩ :=
    exists_of_mem_pairs (fun _ _ h => by cases h) (fun _ h => h) hp
  have hnamed (x : Observation × String × FrameSet) (hx : x ∈ m.halvesAt r site os)
      (hsub : ∀ f, x.2.2.Has f → p.2.1.Has f ∨ p.2.2.Has f) (heq : x.2.1 = label) :
      ∃ o ∈ os, o.site = site ∧ ∃ f, m.Matches r label o f ∧ ∃ kind, f.kind? = some kind ∧
        m.kinds.name kind ∈ (m.issue method p.1 (pairHit r p.2)).sourceKinds := by
    obtain ⟨o, ho, hsite, h, hh, rfl⟩ := mem_halvesAt.1 hx
    obtain ⟨hhalf, hsources, f, hf⟩ := halfOf?_eq_some hh
    have hmatches : m.Matches r h.label o f := ⟨hhalf, has_accepted.1 (hsources ▸ hf)⟩
    obtain ⟨⟨accepted, -, kind, hkind, -⟩, -⟩ := hmatches.2.2
    exact ⟨o, ho, hsite, f, heq ▸ hmatches, kind, hkind,
      mem_sourceKinds_pairHit.2 ⟨f, kind, hsub f hf, hkind, rfl⟩⟩
  -- the two halves have both labels, and the sources of either are in the pair
  have heither : x.2.1 = label ∨ x'.2.1 = label := by
    have hfirst := label_of_mem_halvesAt hflow hkeys hx
    have hsecond := label_of_mem_halvesAt hflow hkeys hx'
    grind
  rcases heither with heq | heq
  · exact hnamed x hx (fun f hf => .inl (hown ▸ hf)) heq
  · exact hnamed x' hx' (fun f hf => .inr (hother f hf)) heq

end

/-- A check finds paired flows of a rule at a call if and only if both labels of the rule are met
there. Every issue of such a flow, deferred if the rule asks for an effect, names for each label the
kind of a source that matches it. If one label alone is met, all that matches it goes on waiting,
and nothing else of the rule waits at the call. -/
theorem check_paired (hr : m.rules.Loaded) (hmem : r ∈ m.rules.rules)
    {sources : OrdMap String (OrdSet KindId)} {sinks : OrdSet KindId}
    (hflow : r.flow = .paired sources sinks) {method : Method}
    (hos : ∀ o ∈ os, o.site.method = method.id) (s : Stash) (site : CallSite) :
    (m.check method os s).1.findings =
        (m.hitsInTurn os (s.clear method.id)).1.map (fun e => m.finding method e.1 e.2) ∧
      ∃ first second, sources.keys = [first, second] ∧
        ((∃ e ∈ (m.hitsInTurn os (s.clear method.id)).1, m.isPairAt r site e.1 e.2 = true) ↔
          m.Met r first site os ∧ m.Met r second site os) ∧
        (∀ e ∈ (m.hitsInTurn os (s.clear method.id)).1, m.isPairAt r site e.1 e.2 = true →
          m.finding method e.1 e.2 =
              (match r.effectSources with
                | none => .issue (m.issue method e.1 e.2)
                | some effectSources =>
                  .deferred ⟨method.id, effectSources, m.issue method e.1 e.2⟩) ∧
            ∀ label ∈ sources.keys, ∃ o ∈ os, o.site = site ∧ ∃ f, m.Matches r label o f ∧
              ∃ kind, f.kind? = some kind ∧
                m.kinds.name kind ∈ (m.issue method e.1 e.2).sourceKinds) ∧
        ∀ label ∈ sources.keys, m.Met r label site os →
          (∀ other ∈ sources.keys, other ≠ label → ¬ m.Met r other site os) →
            ∀ own, (m.check method os s).2.halves.get? (r.code, site, own) =
              if own = label then some (m.matching r label site os) else none := by
  obtain ⟨first, second, hkeys⟩ := hr.isPaired r hmem sources sinks hflow
  refine ⟨congrArg Prod.fst (m.inTurn_findings method os (s.clear method.id)), first, second, hkeys,
    exists_pair_iff hr hmem hflow hkeys hos s site, fun e he hat => ?_,
    fun label hlabel hmet hothers own => ?_⟩
  · obtain ⟨p, hp, rfl⟩ := (mem_pairs_iff hr hmem hflow hkeys hos s site e).1 ⟨he, hat⟩
    refine ⟨?_, fun label hlabel => ?_⟩
    · simp only [finding, pairHit]
      cases r.effectSources <;> rfl
    · rw [hkeys, List.mem_pair] at hlabel
      exact exists_named hflow hkeys site hp hlabel
  · obtain ⟨o, ho, rfl, -⟩ := id hmet
    have hsite : o.site = ⟨method.id, o.site.position⟩ := by rw [← hos o ho]
    obtain ⟨e, he, -⟩ := (met_iff hflow hkeys).1 hmet
    have hlabels : ∀ e ∈ m.halvesAt r o.site os, e.2.1 = label := fun e he => by
      by_contra hne
      have hmem : e.2.1 ∈ sources.keys := by
        rw [hkeys, List.mem_pair]
        exact label_of_mem_halvesAt hflow hkeys he
      exact hothers _ hmem hne ((met_iff hflow hkeys).2 ⟨e, he, rfl⟩)
    have hwaits : (m.check method os s).2.Waits r.code o.site
        (meetAll none (m.halvesAt r o.site os)).2 := by
      rw [hsite]
      exact check_waits hr hmem hflow hkeys s o.site.position
    rw [hwaits own, meetAll_none_of_label hlabels (List.ne_nil_of_mem he),
      foldl_halvesAt hflow hkeys hlabels]
    simp [eq_comm]

/-- Bytes of two sources wait together; once a stream comes as well, there is a pair. -/
theorem check_paired_launching :
    (∀ own, (launching.check .launching [.launch 3 0, .launch 3 1] ∅).2.halves.get?
        (4, ⟨⟨0⟩, 0⟩, own) =
      if own = "bytes" then some (FrameSet.ofList [(.ofKind ⟨0⟩, ∅), (.ofKind ⟨1⟩, ∅)])
      else none) ∧
    ∃ e ∈ (launching.hitsInTurn [.launch 3 0, .launch 4 2] (Stash.clear ∅ ⟨0⟩)).1,
      launching.isPairAt RuleSet.launchRule ⟨⟨0⟩, 0⟩ e.1 e.2 = true := by
  have hmem : RuleSet.launchRule ∈ launching.rules.rules := List.mem_singleton_self _
  have hmet (half kind : Nat) {label : String} {os : List Observation}
      (ho : Observation.launch half kind ∈ os)
      (hhalf : launching.IsHalf RuleSet.launchRule label (.launch half kind))
      (haccepts : RuleSet.launchRule.Accepts label (.ofKind ⟨half⟩) (.ofKind ⟨kind⟩)) :
      launching.Met RuleSet.launchRule label ⟨⟨0⟩, 0⟩ os :=
    ⟨_, ho, rfl, .ofKind ⟨kind⟩, hhalf, ⟨∅, OrdMap.get?_alter_self _ _ _⟩, haccepts⟩
  constructor
  · have hos : ∀ o ∈ [Observation.launch 3 0, .launch 3 1],
        o.site.method = Method.launching.id := by decide
    obtain ⟨-, first, second, -, -, -, hwaits⟩ :=
      check_paired (m := launching) RuleSet.loaded_launchRule hmem rfl hos ∅ ⟨⟨0⟩, 0⟩
    refine hwaits "bytes" (by decide) (hmet 3 0 (by simp) (by decide) (by decide)) ?_
    rintro other - hne ⟨o, ho, -, f, hhalf, -⟩
    have hbytes : ∀ o ∈ [Observation.launch 3 0, .launch 3 1],
        launching.IsHalf RuleSet.launchRule "bytes" o := by decide
    exact hne (hhalf.label_eq (hbytes o ho))
  · have hos : ∀ o ∈ [Observation.launch 3 0, .launch 4 2],
        o.site.method = Method.launching.id := by decide
    obtain ⟨-, first, second, hkeys, hpairs, -, -⟩ :=
      check_paired (m := launching) RuleSet.loaded_launchRule hmem rfl hos ∅ ⟨⟨0⟩, 0⟩
    obtain ⟨rfl, rfl⟩ : "bytes" = first ∧ "stream" = second := by
      simpa using show ["bytes", "stream"] = [first, second] from hkeys
    exact hpairs.2 ⟨hmet 3 0 (by simp) (by decide) (by decide),
      hmet 4 2 (by simp) (by decide) (by decide)⟩

end Matcher

end TaintFlow
