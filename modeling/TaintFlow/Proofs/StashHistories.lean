import TaintFlow.Proofs.DirectFlows
import TaintFlow.Proofs.MeetingHalves

/-!
Histories of the stash. Halves are met and methods are cleared, where each rule keeps to two labels
(`Labels`). A change takes out what waits for a rule at a call if it clears the method or brings
two halves together; the halves met since then (`Since`) are of one label, and what waits is their
sources, joined. One change keeps this (`change_waits`), hence every history does
(`exists_since_waits`), and `after_labelled` says what it comes to for each operation. What matching
does to the stash is such a history: `Matcher.exists_follows_check`.
-/

namespace TaintFlow

def FrameSet.joinAll (ss : List FrameSet) : FrameSet := ss.foldl join ∅

namespace Stash

/-! ### Histories -/

inductive Change where
  | fulfill (rule : Int) (site : CallSite) (label other : String) (sources : FrameSet)
  | clear (method : MethodId)

def change (s : Stash) : Change → Stash
  | .fulfill rule site label other sources => (s.fulfill rule site label other sources).2
  | .clear method => s.clear method

def after (changes : List Change) : Stash := changes.foldl change ∅

theorem after_concat (changes : List Change) (c : Change) :
    after (changes ++ [c]) = (after changes).change c := List.foldl_concat ..

structure Labels where
  first : Int → String
  second : Int → String
  distinct : ∀ rule, first rule ≠ second rule

def Labels.Pair (l : Labels) (rule : Int) (label other : String) : Prop :=
  label = l.first rule ∧ other = l.second rule ∨ label = l.second rule ∧ other = l.first rule

def Change.Keeps (l : Labels) : Change → Prop
  | .fulfill rule _ label other _ => l.Pair rule label other
  | .clear _ => True

/-- A change takes out what waits for a rule at a call: it clears the method of the call, or brings
two halves of the rule together there. -/
def TakesOut (rule : Int) (site : CallSite) (s : Stash) : Change → Prop
  | .fulfill code place label other sources =>
    code = rule ∧ place = site ∧ (s.fulfill code place label other sources).1.isSome
  | .clear method => site.method = method

/-- The changes of a history since the last one that took out what waits for a rule at a call. -/
def Since (rule : Int) (site : CallSite) (changes recent : List Change) : Prop :=
  ∃ before, changes = before ++ recent ∧
    (∀ earlier c, before = earlier ++ [c] → TakesOut rule site (after earlier) c) ∧
    ∀ earlier c later, recent = earlier ++ c :: later →
      ¬ TakesOut rule site (after (before ++ earlier)) c

def Change.half? (rule : Int) (site : CallSite) : Change → Option (String × FrameSet)
  | .fulfill code place label _ sources =>
    if code = rule ∧ place = site then some (label, sources) else none
  | .clear _ => none

def met (rule : Int) (site : CallSite) (label : String) (changes : List Change) : List FrameSet :=
  ((changes.filterMap (Change.half? rule site)).filter (·.1 = label)).map Prod.snd

variable {l : Labels} {rule : Int} {site : CallSite} {label other : String} {s : Stash}
  {w : Waiting} {changes recent : List Change} {c : Change}

theorem Labels.Pair.ne (h : l.Pair rule label other) : label ≠ other := by
  rcases h with ⟨rfl, rfl⟩ | ⟨rfl, rfl⟩
  · exact l.distinct rule
  · exact (l.distinct rule).symm

theorem among_none {first second : String} : Waiting.Among none first second :=
  fun _ _ h => by cases h

theorem since_nil : Since rule site [] [] :=
  ⟨[], rfl, fun earlier c h => by simp at h, fun earlier c later h => by simp at h⟩

theorem since_takesOut (h : TakesOut rule site (after changes) c) :
    Since rule site (changes ++ [c]) [] := by
  refine ⟨changes ++ [c], by simp, fun earlier c' heq => ?_, fun earlier c later h => by simp at h⟩
  obtain ⟨rfl, hc⟩ := List.append_inj' heq rfl
  obtain rfl := List.singleton_inj.1 hc
  exact h

theorem Since.concat (hsince : Since rule site changes recent)
    (h : ¬ TakesOut rule site (after changes) c) :
    Since rule site (changes ++ [c]) (recent ++ [c]) := by
  obtain ⟨before, rfl, hlast, hnone⟩ := hsince
  refine ⟨before, List.append_assoc .., hlast, fun earlier c' later heq => ?_⟩
  rcases List.eq_nil_or_concat later with rfl | ⟨later, last, rfl⟩
  · obtain ⟨rfl, hc⟩ := List.append_inj' heq rfl
    obtain rfl := List.singleton_inj.1 hc
    exact h
  · rw [List.concat_eq_append, ← List.cons_append, ← List.append_assoc] at heq
    exact hnone earlier c' later (List.append_inj' heq rfl).1

/-- There is one last change that took out what waits. -/
theorem Since.unique {recent' : List Change} (h : Since rule site changes recent)
    (h' : Since rule site changes recent') : recent = recent' := by
  -- a change between the two beginnings would have taken out what waits, and would not
  have hmid {before mid recent : List Change}
      (hlast : ∀ earlier c, before ++ mid = earlier ++ [c] → TakesOut rule site (after earlier) c)
      (hnone : ∀ earlier c later, mid ++ recent = earlier ++ c :: later →
        ¬ TakesOut rule site (after (before ++ earlier)) c) : mid = [] := by
    rcases List.eq_nil_or_concat mid with rfl | ⟨mid, c, rfl⟩
    · rfl
    · refine absurd (hlast (before ++ mid) c ?_) (hnone mid c recent ?_) <;> simp
  obtain ⟨before, rfl, hlast, hnone⟩ := h
  obtain ⟨before', heq, hlast', hnone'⟩ := h'
  rcases List.append_eq_append_iff.1 heq with ⟨mid, rfl, rfl⟩ | ⟨mid, rfl, rfl⟩
  · rw [hmid hlast' hnone, List.nil_append]
  · rw [hmid hlast hnone', List.nil_append]

/-- A history in which each rule keeps to its labels leads from one stash to another. -/
def Follows (l : Labels) (s t : Stash) : Prop :=
  ∃ changes : List Change, (∀ c ∈ changes, c.Keeps l) ∧ t = changes.foldl change s

theorem Follows.refl (l : Labels) (s : Stash) : Follows l s s := ⟨[], by simp, rfl⟩

theorem Follows.change {t : Stash} (h : Follows l s t) (hc : c.Keeps l) :
    Follows l s (t.change c) := by
  obtain ⟨changes, hchanges, rfl⟩ := h
  refine ⟨changes ++ [c], ?_, (List.foldl_concat ..).symm⟩
  simpa [or_imp, forall_and] using ⟨hchanges, hc⟩

/-! ### What one change keeps -/

/-- What waits is the joined sources of some halves, which are all of one label. -/
def Gathers (w : Waiting) (halves : List (String × FrameSet)) : Prop :=
  match w with
  | none => halves = []
  | some (own, joined) =>
    halves ≠ [] ∧ (∀ e ∈ halves, e.1 = own) ∧ joined = FrameSet.joinAll (halves.map Prod.snd)

theorem Gathers.meetNext {halves : List (String × FrameSet)} {sources : FrameSet}
    (h : Gathers w halves) (hnone : (meetNext w label sources).1 = none) :
    Gathers (meetNext w label sources).2 (halves ++ [(label, sources)]) := by
  rcases w with _ | ⟨own, joined⟩
  · obtain rfl : halves = [] := h
    exact ⟨by simp, by simp, (FrameSet.empty_join sources).symm⟩
  · obtain ⟨-, hlabels, rfl⟩ := h
    by_cases hlabel : own = label
    · subst hlabel
      simp only [TaintFlow.meetNext, if_true]
      refine ⟨by simp, ?_, ?_⟩
      · simpa [or_imp, forall_and] using hlabels
      · rw [List.map_append, FrameSet.joinAll, FrameSet.joinAll, List.foldl_append]
        rfl
    · simp [TaintFlow.meetNext, hlabel] at hnone

theorem meetNext_of_isSome {sources : FrameSet} (h : (meetNext w label sources).1.isSome) :
    (meetNext w label sources).2 = none := by
  unfold TaintFlow.meetNext at h ⊢
  split
  · simp at h
  · split
    · simp_all
    · rfl

/-- A half of a rule takes out what waits for the rule just where it finds its counterpart, and else
waits with the halves before it. -/
theorem fulfill_waits (hs : s.Waits rule site w) (hw : w.Among (l.first rule) (l.second rule))
    {halves : List (String × FrameSet)} (hgathers : Gathers w halves)
    (hpair : l.Pair rule label other) (sources : FrameSet) :
    (s.fulfill rule site label other sources).1.isSome ∧
        (s.fulfill rule site label other sources).2.Waits rule site none ∨
      (s.fulfill rule site label other sources).1 = none ∧
        ∃ w', (s.fulfill rule site label other sources).2.Waits rule site w' ∧
          w'.Among (l.first rule) (l.second rule) ∧ Gathers w' (halves ++ [(label, sources)]) := by
  have hlabel : label = l.first rule ∨ label = l.second rule := hpair.imp And.left And.left
  have hown : ∀ own joined, w = some (own, joined) → own = label ∨ own = other := by
    intro own joined hwait
    rcases hpair with ⟨rfl, rfl⟩ | ⟨rfl, rfl⟩
    · exact hw own joined hwait
    · exact (hw own joined hwait).symm
  obtain ⟨hmet, hwaits⟩ := hs.fulfill hpair.ne hown sources
  rw [hmet]
  cases hpairs : (meetNext w label sources).1 with
  | some pair =>
    rw [meetNext_of_isSome (by rw [hpairs]; rfl)] at hwaits
    exact .inl ⟨rfl, hwaits⟩
  | none => exact .inr ⟨rfl, _, hwaits, hw.meetNext hlabel, hgathers.meetNext hpairs⟩

/-- After a change that keeps to the labels, nothing waits for a rule at a call, if the change takes
it out; or what waits gathers one more half, if the change meets one. -/
theorem change_waits (hs : s.Waits rule site w) (hw : w.Among (l.first rule) (l.second rule))
    {halves : List (String × FrameSet)} (hgathers : Gathers w halves) (hc : c.Keeps l) :
    TakesOut rule site s c ∧ (s.change c).Waits rule site none ∨
      ¬ TakesOut rule site s c ∧ ∃ w', (s.change c).Waits rule site w' ∧
        w'.Among (l.first rule) (l.second rule) ∧
        Gathers w' (halves ++ (c.half? rule site).toList) := by
  cases c with
  | clear method =>
    by_cases hmethod : site.method = method
    · subst hmethod
      exact .inl ⟨rfl, waits_clear s rule site⟩
    · have hsame : AgreeOn (fun code site' => code = rule ∧ site' = site) (s.clear method) s := by
        rintro _ _ label ⟨rfl, rfl⟩
        rw [get?_clear, if_neg hmethod]
      refine .inr ⟨hmethod, w, hs.congr hsame, hw, ?_⟩
      simpa [Change.half?] using hgathers
  | fulfill code place label other sources =>
    by_cases hplace : code = rule ∧ place = site
    · obtain ⟨rfl, rfl⟩ := hplace
      rcases fulfill_waits hs hw hgathers hc sources with ⟨hmet, hwaits⟩ | ⟨hmet, w', hwaits, hw', hg'⟩
      · exact .inl ⟨⟨rfl, rfl, hmet⟩, hwaits⟩
      · refine .inr ⟨fun h => ?_, w', hwaits, hw', by simpa [Change.half?] using hg'⟩
        have hsome := h.2.2
        rw [hmet] at hsome
        cases hsome
    · have hsame : AgreeOn (fun code site' => code = rule ∧ site' = site)
          (s.fulfill code place label other sources).2 s :=
        fulfill_elsewhere label other sources hplace
      refine .inr ⟨fun h => hplace ⟨h.1, h.2.1⟩, w, hs.congr hsame, hw, ?_⟩
      simpa [Change.half?, hplace] using hgathers

/-! ### What every history keeps -/

/-- What waits for a rule at a call gathers the halves met there since it was last taken out. -/
theorem exists_since_waits (h : ∀ c ∈ changes, c.Keeps l) (rule : Int) (site : CallSite) :
    ∃ recent w, Since rule site changes recent ∧ (after changes).Waits rule site w ∧
      w.Among (l.first rule) (l.second rule) ∧
      Gathers w (recent.filterMap (Change.half? rule site)) := by
  induction changes using List.reverseRecOn with
  | nil => exact ⟨[], none, since_nil, fun _ => rfl, among_none, rfl⟩
  | append_singleton changes c ih =>
    obtain ⟨recent, w, hsince, hs, hw, hgathers⟩ :=
      ih fun c' hc' => h c' (List.mem_append.2 (.inl hc'))
    rw [after_concat]
    rcases change_waits hs hw hgathers (h c (by simp)) with ⟨hout, hs'⟩ | ⟨hout, w', hs', hw', hg'⟩
    · exact ⟨[], none, since_takesOut hout, hs', among_none, rfl⟩
    · refine ⟨recent ++ [c], w', hsince.concat hout, hs', hw', ?_⟩
      rw [List.filterMap_append]
      cases hhalf : c.half? rule site <;> simpa [hhalf] using hg'

/-- What waits under a label: the joined sources of the halves with it, if there are any. -/
theorem Gathers.waits (hgathers : Gathers w (recent.filterMap (Change.half? rule site)))
    (hs : s.Waits rule site w) (label : String) :
    s.halves.get? (rule, site, label) =
      if met rule site label recent = [] then none
      else some (FrameSet.joinAll (met rule site label recent)) := by
  rw [hs label, met]
  rcases w with _ | ⟨own, joined⟩
  · have hnil : recent.filterMap (Change.half? rule site) = [] := hgathers
    simp [hnil]
  · obtain ⟨hne, hlabels, rfl⟩ := hgathers
    by_cases hlabel : own = label
    · subst hlabel
      have hall : (recent.filterMap (Change.half? rule site)).filter (·.1 = own) =
          recent.filterMap (Change.half? rule site) :=
        List.filter_eq_self.2 fun e he => decide_eq_true (hlabels e he)
      simp [hall, hne]
    · have hnone : (recent.filterMap (Change.half? rule site)).filter (·.1 = label) = [] :=
        List.filter_eq_nil_iff.2 fun e he => by simp [hlabels e he, hlabel]
      simp [hnone, hlabel]

/-- Nothing waits for a rule at a call under two labels. -/
theorem Waits.eq_of_contains (hs : s.Waits rule site w) {label' : String}
    (h : s.halves.contains (rule, site, label)) (h' : s.halves.contains (rule, site, label')) :
    label = label' := by
  have hown {label : String} (h : s.halves.contains (rule, site, label)) :
      ∃ joined, w = some (label, joined) := by
    obtain ⟨_, hget⟩ := OrdMap.contains_iff.1 h
    rw [hs label] at hget
    rcases w with _ | ⟨own, joined⟩
    · cases hget
    · by_cases hlabel : own = label
      · exact ⟨joined, by rw [hlabel]⟩
      · simp [hlabel] at hget
  obtain ⟨joined, rfl⟩ := hown h
  obtain ⟨joined', heq⟩ := hown h'
  cases heq
  rfl

/-! ### What an operation does -/

theorem fulfill_of_contains (h : s.halves.contains (rule, site, other))
    (hown : ¬ s.halves.contains (rule, site, label)) (sources : FrameSet) :
    s.fulfill rule site label other sources =
      (some (sources, s.halves.getD (rule, site, other) ∅),
        ⟨s.halves.erase (rule, site, other)⟩) := by
  obtain ⟨joined, hget⟩ := OrdMap.contains_iff.1 h
  have hnone : (s.halves.erase (rule, site, other)).get? (rule, site, label) = none := by
    rw [OrdMap.get?_erase]
    split
    · rfl
    · simpa [OrdMap.contains] using hown
  have hrest : (s.halves.erase (rule, site, other)).erase (rule, site, label) =
      s.halves.erase (rule, site, other) := by
    refine OrdMap.ext fun k => ?_
    rw [OrdMap.get?_erase]
    split
    · next hk => rw [hk, hnone]
    · rfl
  simp only [fulfill, hget, hrest, OrdMap.getD, hnone]
  rw [Option.getD_none, FrameSet.empty_join, Option.getD_some]

theorem fulfill_of_not_contains (h : ¬ s.halves.contains (rule, site, other)) (label : String)
    (sources : FrameSet) :
    s.fulfill rule site label other sources =
      (none, ⟨s.halves.insert (rule, site, label)
        ((s.halves.getD (rule, site, label) ∅).join sources)⟩) := by
  have hget : s.halves.get? (rule, site, other) = none := by simpa [OrdMap.contains] using h
  simp only [fulfill, hget]
  congr 2
  refine OrdMap.ext fun k => ?_
  rw [OrdMap.get?_update, OrdMap.get?_insert]

/-- Where no rule has both labels waiting at a call, what is pending is counted by rule and call. -/
theorem exists_pending (h : ∀ rule site, ∃ w, s.Waits rule site w) :
    ∃ pairs : List (Int × CallSite), pairs.Nodup ∧
      (∀ rule site, (rule, site) ∈ pairs ↔ ∃ label, s.halves.contains (rule, site, label)) ∧
      s.pending = pairs.length := by
  refine ⟨s.halves.keys.map fun k => (k.1, k.2.1), ?_, fun rule site => ?_, ?_⟩
  · refine List.Nodup.map_on ?_ s.halves.nodup_keys
    rintro ⟨rule, site, label⟩ hk ⟨_, _, label'⟩ hk' ⟨⟩
    obtain ⟨w, hs⟩ := h rule site
    rw [hs.eq_of_contains (OrdMap.contains_iff.2 (OrdMap.mem_keys.1 hk))
      (OrdMap.contains_iff.2 (OrdMap.mem_keys.1 hk'))]
  · simp [OrdMap.contains_iff, OrdMap.mem_keys]
  · rw [List.length_map, OrdMap.length_keys, pending]

/-- In every history in which each rule keeps to its labels: what waits under a label for a rule at
a call is the joined sources of the halves with the label that were met there since the last change
that took them out, and never is there something under both labels. A half comes together with its
counterpart exactly if that waits, and both are handed out and gone; if not, it waits, with the
halves of its label. Clearing a method drops what waits at its calls and nothing else, and what is
pending is counted once for each rule and call. -/
theorem after_labelled (l : Labels) {changes : List Change} (h : ∀ c ∈ changes, c.Keeps l) :
    (∀ rule site, ∃ recent, (∀ r, Since rule site changes r ↔ r = recent) ∧
      (∀ label, (after changes).halves.get? (rule, site, label) =
        if met rule site label recent = [] then none
        else some (FrameSet.joinAll (met rule site label recent))) ∧
      ¬ ((after changes).halves.contains (rule, site, l.first rule) ∧
        (after changes).halves.contains (rule, site, l.second rule)) ∧
      ∀ label other sources, l.Pair rule label other →
        ((after changes).halves.contains (rule, site, other) →
          (after changes).fulfill rule site label other sources =
            (some (sources, FrameSet.joinAll (met rule site other recent)),
              ⟨(after changes).halves.erase (rule, site, other)⟩)) ∧
        (¬ (after changes).halves.contains (rule, site, other) →
          (after changes).fulfill rule site label other sources =
            (none, ⟨(after changes).halves.insert (rule, site, label)
              (((after changes).halves.getD (rule, site, label) ∅).join sources)⟩))) ∧
    (∀ method rule site label, ((after changes).clear method).halves.get? (rule, site, label) =
      if site.method = method then none else (after changes).halves.get? (rule, site, label)) ∧
    ∃ pairs : List (Int × CallSite), pairs.Nodup ∧
      (∀ rule site, (rule, site) ∈ pairs ↔
        ∃ label, (after changes).halves.contains (rule, site, label)) ∧
      (after changes).pending = pairs.length := by
  refine ⟨fun rule site => ?_, get?_clear _, exists_pending fun rule site => ?_⟩
  · obtain ⟨recent, w, hsince, hs, -, hgathers⟩ := exists_since_waits h rule site
    have hget := hgathers.waits hs
    have hrecent (r : List Change) : Since rule site changes r ↔ r = recent :=
      ⟨fun h => h.unique hsince, fun h => h ▸ hsince⟩
    refine ⟨recent, hrecent, hget, fun hboth => ?_, fun label other sources hpair => ?_⟩
    · exact l.distinct rule (hs.eq_of_contains hboth.1 hboth.2)
    · refine ⟨fun hother => ?_, fun hother => fulfill_of_not_contains hother label sources⟩
      rw [fulfill_of_contains hother fun hown => hpair.ne (hs.eq_of_contains hown hother)]
      obtain ⟨joined, hjoined⟩ := OrdMap.contains_iff.1 hother
      rw [OrdMap.getD, hjoined]
      rw [hget] at hjoined
      split at hjoined
      · cases hjoined
      · rw [← hjoined]
        rfl
  · obtain ⟨_, w, -, hs, -⟩ := exists_since_waits h rule site
    exact ⟨w, hs⟩

def Labels.launch : Labels := ⟨fun _ => "bytes", fun _ => "stream", fun _ => by decide⟩

/-- A stream and bytes meet at a call, then bytes come from two more sources. -/
def launches : List Change :=
  let site : CallSite := ⟨⟨0⟩, 0⟩
  [.fulfill 4 site "stream" "bytes" (.singleton (.ofKind ⟨2⟩) ∅),
    .fulfill 4 site "bytes" "stream" (.singleton (.ofKind ⟨0⟩) ∅),
    .fulfill 4 site "bytes" "stream" (.singleton (.ofKind ⟨0⟩) ∅),
    .fulfill 4 site "bytes" "stream" (.singleton (.ofKind ⟨1⟩) ∅)]

/-- The next stream meets the bytes of both. -/
theorem after_labelled_launches :
    (after launches).halves.contains (4, ⟨⟨0⟩, 0⟩, "bytes") ∧
      ∀ sources, (after launches).fulfill 4 ⟨⟨0⟩, 0⟩ "stream" "bytes" sources =
        (some (sources, FrameSet.ofList [(.ofKind ⟨0⟩, ∅), (.ofKind ⟨1⟩, ∅)]), ∅) := by
  have hkeeps : ∀ c ∈ launches, c.Keeps Labels.launch := by
    simp [launches, Change.Keeps, Labels.Pair, Labels.launch]
  obtain ⟨hhistory, -, -⟩ := after_labelled Labels.launch hkeeps
  obtain ⟨recent, -, hget, -, hfulfill⟩ := hhistory 4 ⟨⟨0⟩, 0⟩
  have hbytes : (after launches).halves.contains (4, ⟨⟨0⟩, 0⟩, "bytes") := by decide
  refine ⟨hbytes, fun sources => ?_⟩
  have hwaits : (after launches).halves.get? (4, ⟨⟨0⟩, 0⟩, "bytes") =
      some (FrameSet.ofList [(.ofKind ⟨0⟩, ∅), (.ofKind ⟨1⟩, ∅)]) := by decide
  rw [hget "bytes"] at hwaits
  split at hwaits
  · cases hwaits
  · rw [(hfulfill "stream" "bytes" sources (.inr ⟨rfl, rfl⟩)).1 hbytes, Option.some.inj hwaits]
    have hempty : (after launches).halves.erase (4, ⟨⟨0⟩, 0⟩, "bytes") = ∅ := by decide
    rw [hempty]
    rfl

end Stash

/-! ### Histories of matching -/

namespace Matcher

variable {m : Matcher}

def HasLabels (m : Matcher) (l : Stash.Labels) : Prop :=
  ∀ r ∈ m.rules.rules, ∀ sources sinks, r.flow = .paired sources sinks →
    sources.keys = [l.first r.code, l.second r.code]

theorem exists_hasLabels (hr : m.rules.Loaded) : ∃ l, m.HasLabels l := by
  have hlabels (code : Int) : ∃ first second, first ≠ second ∧
      ∀ r ∈ m.rules.rules, r.code = code → ∀ sources sinks, r.flow = .paired sources sinks →
        sources.keys = [first, second] := by
    by_cases hpaired : ∃ r ∈ m.rules.rules, r.code = code ∧
        ∃ sources sinks, r.flow = .paired sources sinks
    · obtain ⟨r, hmem, rfl, sources, sinks, hflow⟩ := hpaired
      obtain ⟨first, second, hkeys⟩ := hr.isPaired r hmem sources sinks hflow
      refine ⟨first, second, Rule.ne_of_keys hkeys, fun r' hmem' hcode sources' sinks' hflow' => ?_⟩
      obtain rfl := eq_of_code hr.wellFormed hmem hmem' hcode
      cases hflow.symm.trans hflow'
      exact hkeys
    · exact ⟨"0", "1", by decide, fun r hmem hcode sources sinks hflow =>
        absurd ⟨r, hmem, hcode, sources, sinks, hflow⟩ hpaired⟩
  choose first second hne hkeys using hlabels
  exact ⟨⟨first, second, hne⟩, fun r hmem => hkeys r.code r hmem rfl⟩

theorem pair_of_mem_halfHits (hr : m.rules.WellFormed) {l : Stash.Labels} (hl : m.HasLabels l)
    {o : Observation} {sink : KindId} {half : Half} (hhalf : m.half? o = some (sink, half))
    {h : HalfHit} (hh : h ∈ m.halfHits o sink half) : l.Pair h.rule.code h.label h.other := by
  obtain ⟨r, hfor, hhit⟩ := List.mem_filterMap.1 (m.halfHits_eq o sink half ▸ hh)
  obtain ⟨hmem, hkey⟩ := ((hr.listsOnce_rulesForHalf sink).mem_iff r).1 hfor
  have hof : m.halfOf? r o = some h := by simp [halfOf?, hhalf, hkey, hhit]
  cases hflow : r.flow with
  | direct sources sinks => simp [RuleSet.halfKeys, hflow] at hkey
  | paired sources sinks =>
    obtain ⟨rfl, hlabels⟩ := m.labels_of_halfOf? hflow (hl r hmem sources sinks hflow) hof
    exact hlabels

/-- Matching does to the stash what a history does in which each rule keeps to its labels. -/
theorem exists_follows_check (hr : m.rules.Loaded) :
    ∃ l : Stash.Labels, ∀ method os s, Stash.Follows l s (m.check method os s).2 := by
  obtain ⟨l, hl⟩ := exists_hasLabels hr
  refine ⟨l, fun method os s => ?_⟩
  refine inTurn_keeps (fun o _ t ht => ?_)
    ((Stash.Follows.refl l s).change (c := .clear method.id) trivial)
  show Stash.Follows l s (m.hits o t).2
  cases hhalf : m.half? o with
  | none =>
    rw [m.hits_of_half?_eq_none hhalf]
    exact ht
  | some e =>
    rw [m.hits_of_half?_eq_some hhalf]
    refine inTurn_keeps (fun h hh t ht => ?_) ht
    rw [meetHalf_eq]
    exact ht.change (c := .fulfill h.rule.code o.site h.label h.other h.sources)
      (pair_of_mem_halfHits hr.wellFormed hl hhalf hh)

end Matcher

end TaintFlow
