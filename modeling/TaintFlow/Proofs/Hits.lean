import TaintFlow.Proofs.Contracts
import TaintFlow.Proofs.Waiting

/-!
What hits are made of. The sources of a hit reached sinks of one call: the sink that is hit, and
where a half meets its counterpart also the one observed before, whose sources waited in the stash.
So what a contract says about all frames that reach sinks holds of the sources of every hit, and
every finding is that of such a hit (`Matcher.exists_hit`).
-/

namespace TaintFlow

variable {c : Contract} {s : Stash}

theorem Frame.kind?_eq_some_iff {f : Frame} {id : KindId} :
    f.kind? = some id ↔ f.label = .kind id := by
  unfold kind?
  cases f.label <;> simp

theorem FrameSet.mem_kinds {s : FrameSet} {id : KindId} {f : Frame} {info : FrameInfo} :
    (id, f, info) ∈ s.kinds ↔ (f, info) ∈ s.entries ∧ f.kind? = some id := by
  simp only [kinds, List.mem_filterMap, Option.map_eq_some_iff, Prod.exists, Prod.mk.injEq]
  constructor
  · rintro ⟨f, info, hmem, id, hid, rfl, rfl, rfl⟩
    exact ⟨hmem, hid⟩
  · rintro ⟨hmem, hid⟩
    exact ⟨f, info, hmem, id, hid, rfl, rfl, rfl⟩

structure Observation.Meets (c : Contract) (o : Observation) : Prop where
  sink : c.sink o.sink o.info
  sources : o.sources.Each c.frame
  parameters : o.parameters.Each c.frame

/-- Two observations of one sink meet a contract together. -/
theorem Observation.Meets.join {depth : Nat} (hc : c.Closed depth) {o o' : Observation}
    (hsink : o.sink = o'.sink) (ho : o.Meets c) (ho' : o'.Meets c) : (o.join o').Meets c where
  sink := hc.sinks o.sink o.info o'.info ho.sink (hsink ▸ ho'.sink)
  sources := FrameSet.each_join hc.frames ho.sources ho'.sources
  parameters := FrameSet.each_join hc.frames ho.parameters ho'.parameters

def Hit.Meets (c : Contract) (h : Hit) : Prop :=
  ∀ source ∈ h.sources, ∃ f, f.kind? = some source.1 ∧ c.frame f source.2

def Stash.Meets (c : Contract) (s : Stash) : Prop :=
  s.halves.Each fun _ sources => sources.Each c.frame

theorem Stash.meets_empty : (∅ : Stash).Meets c := OrdMap.each_empty

theorem Stash.Meets.clear (hs : s.Meets c) (method : MethodId) : (s.clear method).Meets c :=
  OrdMap.Each.filter hs fun k _ => decide (k.2.1.method ≠ method)

/-- What meets a half is allowed, whether it waited or came with the half. -/
theorem Stash.Meets.fulfill {depth : Nat} (hc : c.Closed depth) (hs : s.Meets c) (rule : Int)
    (site : CallSite) (label other : String) {sources : FrameSet} (hsources : sources.Each c.frame) :
    (s.fulfill rule site label other sources).2.Meets c ∧
      ∀ met, (s.fulfill rule site label other sources).1 = some met →
        met.1.Each c.frame ∧ met.2.Each c.frame := by
  have herase {halves : OrdMap (Int × CallSite × String) FrameSet}
      (h : halves.Each fun _ sources => sources.Each c.frame) (k : Int × CallSite × String) :
      (halves.erase k).Each fun _ sources => sources.Each c.frame := h.alter fun _ h => by cases h
  unfold Stash.fulfill
  simp only
  split
  · next waiting hwaiting =>
    -- both halves leave the stash, the own one with all that had waited for it
    have hrest := herase hs (rule, site, other)
    refine ⟨herase hrest _, fun met hmet => ?_⟩
    obtain rfl := Option.some.inj hmet
    exact ⟨FrameSet.each_join hc.frames (hrest.getD OrdMap.each_empty) hsources,
      hs (rule, site, other) waiting hwaiting⟩
  · exact ⟨OrdMap.Each.update hs (FrameSet.each_join hc.frames
      (OrdMap.Each.getD hs OrdMap.each_empty) hsources), nofun⟩

namespace Matcher

variable {m : Matcher} {depth : Nat} {o : Observation}

theorem sources_meet {sources : FrameSet} (h : sources.Each c.frame) :
    ∀ e ∈ sources.kinds, ∃ f, f.kind? = some e.1 ∧ c.frame f e.2.2 := by
  rintro ⟨id, f, info⟩ he
  obtain ⟨hmem, hid⟩ := FrameSet.mem_kinds.1 he
  exact ⟨f, hid, h.of_mem hmem⟩

theorem meetHalf_meets (hc : c.Closed depth) {site : CallSite} {h : HalfHit}
    (hh : h.sources.Each c.frame) (hs : s.Meets c) :
    (meetHalf site h s).2.Meets c ∧ ∀ hit ∈ (meetHalf site h s).1, hit.Meets c := by
  obtain ⟨hrest, hmet⟩ := hs.fulfill hc h.rule.code site h.label h.other hh
  unfold meetHalf
  revert hrest hmet
  rcases s.fulfill h.rule.code site h.label h.other h.sources with ⟨_ | ⟨own, other⟩, s'⟩
  · exact fun hrest _ => ⟨hrest, nofun⟩
  · refine fun hrest hmet => ⟨hrest, fun hit hhit source hsource => ?_⟩
    obtain rfl := List.mem_singleton.1 hhit
    obtain ⟨hown, hother⟩ := hmet _ rfl
    obtain ⟨e, he, rfl⟩ := List.mem_map.1 hsource
    exact (List.mem_append.1 he).elim (sources_meet hown e) (sources_meet hother e)

theorem meeting_meets (rule : Rule) (accepted : OrdSet KindId) (ho : o.Meets c) :
    (meeting rule accepted o).Each c.frame :=
  ho.sources.filter _

theorem halfHits_meet (ho : o.Meets c) {sink : KindId} {half : Half} :
    ∀ h ∈ m.halfHits o sink half, h.sources.Each c.frame := by
  intro h hh
  rw [halfHits_eq] at hh
  obtain ⟨rule, -, hh⟩ := List.mem_filterMap.1 hh
  obtain ⟨accepted, -, hh⟩ := Option.bind_eq_some_iff.1 hh
  obtain ⟨other, -, hh⟩ := Option.bind_eq_some_iff.1 hh
  simp only at hh
  split at hh
  · cases hh
  · cases hh
    exact meeting_meets rule accepted ho

theorem hits_meet (hc : c.Closed depth) (ho : o.Meets c) (hs : s.Meets c) :
    (m.hits o s).2.Meets c ∧ ∀ hit ∈ (m.hits o s).1, hit.Meets c := by
  unfold hits
  split
  · exact ⟨hs, nofun⟩
  · split
    · -- a triggered sink: its sources are those of the observation
      refine ⟨hs, fun hit hhit => ?_⟩
      unfold triggeredHits at hhit
      split at hhit
      · cases hhit
      · next rule _ =>
        obtain ⟨e, he, rfl⟩ := List.mem_map.1 hhit
        intro source hsource
        obtain rfl := List.mem_singleton.1 hsource
        exact sources_meet (meeting_meets rule _ ho) e he
    · -- halves: the sources of one or of both
      next sink _ _ half _ =>
      have hkeep : ∀ h ∈ m.halfHits o sink half, ∀ t : Stash, t.Meets c →
          (meetHalf o.site h t).2.Meets c := fun h hh t ht =>
        (meetHalf_meets hc (halfHits_meet ho h hh) ht).1
      refine ⟨inTurn_keeps hkeep hs, fun hit hhit => ?_⟩
      obtain ⟨h, hh, t, ht, hhit⟩ := exists_of_mem_inTurn_keeps hkeep hs hhit
      exact (meetHalf_meets hc (halfHits_meet ho h hh) ht).2 hit hhit
    · -- an ordinary sink
      refine ⟨hs, fun hit hhit => ?_⟩
      obtain ⟨e, he, hhit⟩ := List.mem_flatMap.1 hhit
      obtain ⟨rule, -, rfl⟩ := List.mem_map.1 hhit
      intro source hsource
      obtain rfl := List.mem_singleton.1 hsource
      exact sources_meet ho.sources e he

variable {method : Method} {os : List Observation}

/-- Every finding is that of a hit whose sources are allowed. -/
theorem exists_hit (hc : c.Closed depth) (hos : ∀ o ∈ os, o.Meets c) {f : Finding}
    (hf : f ∈ (m.check method os ∅).1.findings) :
    ∃ o ∈ os, ∃ h : Hit, h.Meets c ∧ f = m.finding method o h := by
  have hkeep : ∀ o ∈ os, ∀ t : Stash, t.Meets c → (m.findings method o t).2.Meets c :=
    fun o ho t ht => (hits_meet hc (hos o ho) ht).1
  have hclear : ((∅ : Stash).clear method.id).Meets c := Stash.meets_empty.clear method.id
  obtain ⟨o, ho, t, ht, hf⟩ := exists_of_mem_inTurn_keeps hkeep hclear hf
  obtain ⟨h, hh, rfl⟩ := List.mem_map.1 hf
  exact ⟨o, ho, h, (hits_meet hc (hos o ho) ht).2 h hh, rfl⟩

theorem index_lt_of_find? {t : KindTable} {kind : Kind} {id : KindId}
    (h : t.find? kind = some id) : id.index < t.size := by
  obtain ⟨i, hi, rfl⟩ := Option.map_eq_some_iff.1 h
  exact (List.idxOf?_eq_some_iff.1 hi).1

/-- A triggered sink is at a parameter that reached an observed sink, under a kind of the table. -/
theorem of_mem_triggered {stash : Stash} {e : Port × Frame × FrameInfo}
    (he : e ∈ (m.check method os stash).1.triggered) :
    ∃ o ∈ os, ∃ id : KindId, id.index < m.kinds.size ∧
      e ∈ o.atParameters (.kind id) m.maxTransformLength := by
  obtain ⟨o, ho, he⟩ := List.mem_flatMap.1 he
  refine ⟨o, ho, ?_⟩
  unfold triggeredSinks at he
  split at he
  · cases he
  · obtain ⟨rule, -, he⟩ := List.mem_flatMap.1 he
    split at he
    · cases hid : m.kinds.findTriggered? _ rule.code with
      | none =>
        rw [hid] at he
        cases he
      | some id =>
        rw [hid] at he
        obtain ⟨half, -, hfind⟩ := Option.bind_eq_some_iff.1 hid
        exact ⟨id, index_lt_of_find? hfind, he⟩
    · cases he

end Matcher

end TaintFlow
