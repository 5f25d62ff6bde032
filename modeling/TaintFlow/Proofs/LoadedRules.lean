import Mathlib.Data.List.Perm.Subperm
import TaintFlow.Matching
import TaintFlow.Proofs.RuleIndex

/-!
Rule sets as loading leaves them: declarations were accepted and added, perhaps in several files,
and rules may have been dropped again (`RuleSet.Loaded`). Such a set is well-formed, and its paired
rules have two labels (`RuleSet.Loaded.isPaired`); each label is the counterpart of the other.
-/

namespace TaintFlow

namespace Rule

def IsPaired (r : Rule) : Prop :=
  ∀ sources sinks, r.flow = .paired sources sinks → ∃ first second, sources.keys = [first, second]

/-! ### Labels -/

section

variable {r : Rule} {sources : OrdMap String (OrdSet KindId)} {sinks : OrdSet KindId}
  {first second : String}

theorem ne_of_keys (hkeys : sources.keys = [first, second]) : first ≠ second := by
  have hnodup : sources.keys.Nodup := sources.nodup_keys
  rw [hkeys] at hnodup
  simpa using hnodup

/-- The counterpart of either label is the other one. -/
theorem otherLabel?_of_keys (hflow : r.flow = .paired sources sinks)
    (hkeys : sources.keys = [first, second]) :
    r.otherLabel? first = some second ∧ r.otherLabel? second = some first := by
  have hne : first ≠ second := ne_of_keys hkeys
  simp [otherLabel?, hflow, hkeys, hne, hne.symm]

/-- A label that accepts sources is one of the two. -/
theorem label_of_keys (hflow : r.flow = .paired sources sinks)
    (hkeys : sources.keys = [first, second]) {label : String} {accepted : OrdSet KindId}
    (h : r.labelSources? label = some accepted) : label = first ∨ label = second := by
  rw [labelSources?, hflow] at h
  have hmem : label ∈ sources.keys := OrdMap.mem_keys.2 ⟨accepted, h⟩
  simpa [hkeys] using hmem

end

/-! ### Accepted declarations -/

open Interning

theorem yields_mapM {α β : Type} {R : α → β → Prop} {f : α → Interning β}
    (h : ∀ a, (f a).Yields (R a)) (as : List α) : (as.mapM f).Yields (List.Forall₂ R as) := by
  induction as with
  | nil => exact yields_pure .nil
  | cons a as ih =>
    rw [List.mapM_cons]
    exact yields_bind (h a) fun b hb => yields_bind ih fun bs hbs => yields_pure (.cons hb hbs)

/-- A declared sink stands for halves with one of the labels: a base for those with any of them, and
a pair for itself. -/
inductive Expands (labels : List String) : PairedSink → Half → Prop where
  | anyLabel {base label : String} (h : label ∈ labels) :
    Expands labels (.anyLabel base) ⟨base, label⟩
  | labeled {base label : String} (h : label ∈ labels) :
    Expands labels (.labeled base label) ⟨base, label⟩

theorem Expands.label_mem {labels : List String} {sink : PairedSink} {half : Half}
    (h : Expands labels sink half) : half.label ∈ labels := by
  cases h <;> assumption

/-- What a declared sink is expanded to does not depend on the table. -/
theorem exists_expand_eq_lift (rule : String) (labels : List String) (sink : PairedSink) :
    ∃ e : Except ConfigError (List (String × String)), expand rule labels sink = liftM e := by
  cases sink with
  | anyLabel base => exact ⟨.ok (labels.map (base, ·)), rfl⟩
  | labeled base label =>
    rw [expand]
    split
    · exact ⟨.ok [(base, label)], rfl⟩
    · exact ⟨.error (.unknownLabel rule label), rfl⟩

theorem yields_expand (rule : String) (labels : List String) (sink : PairedSink) :
    (expand rule labels sink).Yields fun read =>
      ∀ e, e ∈ read ↔ Expands labels sink ⟨e.1, e.2⟩ := by
  cases sink with
  | anyLabel base =>
    refine yields_pure fun e => ⟨fun he => ?_, fun he => ?_⟩
    · obtain ⟨label, hlabel, rfl⟩ := List.mem_map.1 he
      exact .anyLabel hlabel
    · cases he with
      | anyLabel hlabel => exact List.mem_map_of_mem hlabel
  | labeled base label =>
    show Yields (if labels.contains label then pure [(base, label)]
      else throw (.unknownLabel rule label)) _
    split
    · next hlabel =>
      refine yields_pure fun e => ⟨fun he => ?_, fun he => ?_⟩
      · rw [List.mem_singleton.1 he]
        exact .labeled (List.contains_iff_mem.1 hlabel)
      · cases he
        exact List.mem_singleton_self _
    · exact yields_throw

/-- The halves that accepted sinks are expanded to are those that they stand for. -/
theorem yields_expandAll (rule : String) (labels : List String) (declared : List PairedSink) :
    (declared.mapM (expand rule labels)).Yields fun read =>
      ∀ e, e ∈ read.flatten ↔ ∃ sink ∈ declared, Expands labels sink ⟨e.1, e.2⟩ := by
  intro t read t' hrun e
  have hread := yields_mapM (yields_expand rule labels) declared t read t' hrun
  clear hrun
  induction hread with
  | nil => simp
  | cons hhead _ ih =>
    rw [List.flatten_cons, List.mem_append, hhead]
    exact (or_congr_right ih).trans (by simp)

section Pairs

variable {halves : OrdSet (String × String)} {labels : List String} {base : String}

theorem mem_map_pair {e : String × String} :
    e ∈ labels.map (base, ·) ↔ e.1 = base ∧ e.2 ∈ labels := by
  simp [Prod.ext_iff, and_comm, eq_comm]

/-- As many halves of one base as there are labels are all the halves that it has with them. -/
theorem perm_of_bases (hbase : (halves.map Prod.fst).toList = [base])
    (hlabels : ∀ e ∈ halves, e.2 ∈ labels) (hlength : halves.toList.length = labels.length) :
    halves.toList.Perm (labels.map (base, ·)) := by
  have hsub : halves.toList ⊆ labels.map (base, ·) := fun e he => by
    have he := OrdSet.mem_toList.1 he
    refine mem_map_pair.2 ⟨?_, hlabels e he⟩
    rw [← List.mem_singleton, ← hbase]
    exact OrdSet.mem_toList.2 (OrdSet.mem_map.2 ⟨e, he, rfl⟩)
  exact (List.subperm_of_subset halves.nodup_toList hsub).perm_of_length_le (by simp [hlength])

theorem bases_perm (hhalves : ∀ e, e ∈ halves ↔ e.1 = base ∧ e.2 ∈ labels)
    (hlength : 0 < labels.length) : (halves.map Prod.fst).toList.Perm [base] := by
  obtain ⟨label, hlabel⟩ := List.exists_mem_of_length_pos hlength
  refine OrdSet.toList_perm (List.nodup_singleton base) fun a => ?_
  rw [OrdSet.mem_map, List.mem_singleton]
  constructor
  · rintro ⟨e, he, rfl⟩
    exact ((hhalves e).1 he).1
  · rintro rfl
    exact ⟨(a, label), (hhalves _).2 ⟨rfl, hlabel⟩, rfl⟩

/-- Halves with two labels make a pair if and only if they are the halves of one base with both. -/
theorem isPair_iff (hnodup : labels.Nodup) (hlength : labels.length = 2)
    (hlabels : ∀ e ∈ halves, e.2 ∈ labels) :
    isPair halves = true ↔ ∃ base, ∀ e, e ∈ halves ↔ e.1 = base ∧ e.2 ∈ labels := by
  have hpair : isPair halves = true ↔ (halves.toList.length = 2 ∧
      (halves.map Prod.fst).toList.length = 1) ∧ (halves.map Prod.snd).toList.length = 2 := by
    simp [isPair, OrdSet.size_eq_length]
  rw [hpair]
  constructor
  · rintro ⟨⟨htwo, hone⟩, -⟩
    obtain ⟨base, hbase⟩ := List.length_eq_one_iff.1 hone
    have hperm := perm_of_bases hbase hlabels (htwo.trans hlength.symm)
    exact ⟨base, fun e => by rw [← OrdSet.mem_toList, hperm.mem_iff, mem_map_pair]⟩
  · rintro ⟨base, hhalves⟩
    have hall : halves.toList.Perm (labels.map (base, ·)) :=
      OrdSet.toList_perm (hnodup.map fun _ _ h => congrArg Prod.snd h) fun e => by
        rw [hhalves, mem_map_pair]
    have hbases := bases_perm hhalves (by rw [hlength]; exact Nat.two_pos)
    have hboth : (halves.map Prod.snd).toList.Perm labels :=
      OrdSet.toList_perm hnodup fun a => by simp [OrdSet.mem_map, hhalves]
    rw [hall.length_eq, hbases.length_eq, hboth.length_eq, List.length_map, hlength]
    exact ⟨⟨rfl, rfl⟩, rfl⟩

end Pairs

/-- A list with ascending keys is the listing of the map that is made of it. -/
theorem entries_ofList {ν : Type} {unite : ν → ν → ν} {entries : List (String × ν)}
    (h : Ascending entries) : (OrdMap.ofList unite entries).entries = entries := by
  have hnodup : (entries.map Prod.fst).Nodup := OrdMap.nodup_keys ⟨entries, h⟩
  refine OrdMap.entries_eq_of_ascending h fun k => ?_
  ext v : 1
  rw [OrdMap.get?_ofList_eq_some_iff hnodup, OrdMap.lookup_eq_some_iff h]

def HasLabels (labels? : Option (List String)) : Flow → Prop
  | .direct _ _ => labels? = none
  | .paired sources _ => labels? = some sources.keys ∧ sources.keys.length = 2

/-- A declaration of paired flows is accepted only with two labels, which stay its labels. -/
theorem yields_pairedFlow (rule : String) (multiSources : OrdMap String (List String))
    (declared : List PairedSink) :
    (pairedFlow rule multiSources declared).Yields (HasLabels (some multiSources.keys)) := by
  have hlabel (e : String × List String) : Yields (do
      if e.2.isEmpty then throw (.malformedRule rule (.labelWithoutSources e.1))
      return (e.1, ← internAll e.2)) fun read => read.1 = e.1 :=
    yields_guard fun _ => yields_bind (yields_true _) fun _ _ => yields_pure rfl
  unfold pairedFlow
  refine yields_guard fun hsize => yields_bind (yields_mapM hlabel _) fun read hread => ?_
  have hkeys : read.map Prod.fst = multiSources.keys := by
    rw [← List.forall₂_eq_eq_eq, List.forall₂_map_left_iff, OrdMap.keys,
      List.forall₂_map_right_iff]
    exact hread.flip
  have hascending : (read.map Prod.fst).Pairwise fun k k' => compare k k' = .lt :=
    hkeys ▸ List.pairwise_map.2 multiSources.ascending
  refine yields_bind (yields_true _) fun _ _ => yields_guard fun _ =>
    yields_bind (yields_true _) fun _ _ => yields_pure ?_
  have hlabels : (OrdMap.ofList (fun _ later => later) read).keys = multiSources.keys := by
    rw [OrdMap.keys, entries_ofList (List.pairwise_map.1 hascending), hkeys]
  rw [HasLabels, hlabels, OrdMap.length_keys]
  exact ⟨rfl, not_not.1 hsize⟩

theorem yields_directFlow (rule : String) (sources sinks : List String) :
    (directFlow rule sources sinks).Yields (HasLabels none) :=
  yields_guard fun _ => yields_bind (yields_true _) fun _ _ =>
    yields_bind (yields_true _) fun _ _ => yields_pure rfl

theorem yields_flowOf (d : RuleDeclaration) :
    (flowOf d).Yields (HasLabels (d.multiSources.map OrdMap.keys)) := by
  refine yields_guard fun _ => yields_guard fun _ => ?_
  split
  · next hmulti _ => exact hmulti ▸ yields_directFlow _ _ _
  · next hmulti _ => exact hmulti ▸ yields_pairedFlow _ _ _
  all_goals exact yields_throw

/-- An accepted rule has the code and the labels that are declared. -/
theorem yields_ofDeclaration (d : RuleDeclaration) : (ofDeclaration d).Yields fun r =>
    r.code = d.code ∧ HasLabels (d.multiSources.map OrdMap.keys) r.flow := by
  refine yields_bind (yields_flowOf d) fun flow hflow => ?_
  refine yields_bind (yields_true _) fun _ _ => yields_bind (yields_true _) fun _ _ => ?_
  refine yields_bind (yields_true _) fun _ _ => yields_bind (yields_true _) fun _ _ => ?_
  cases flow with
  | direct _ _ => exact yields_pure ⟨rfl, hflow⟩
  | paired _ _ => exact yields_bind (yields_true _) fun _ _ => yields_pure ⟨rfl, hflow⟩

theorem isPaired_of_hasLabels {r : Rule} {labels? : Option (List String)}
    (h : HasLabels labels? r.flow) : r.IsPaired := by
  intro sources sinks hflow
  rw [hflow] at h
  exact List.length_eq_two.1 h.2

end Rule

namespace RuleSet

/-- The sets that come of loading: declarations are accepted and added to the rules of earlier
files, and rules that are not asked for are dropped. -/
inductive Loaded : RuleSet → Prop where
  | empty : Loaded ∅
  | addAll {s s' : RuleSet} {ds : List RuleDeclaration} {t t' : KindTable} (hs : Loaded s)
      (h : (s.addAll ds).runOn t = (.ok s', t')) : Loaded s'
  | retain {s : RuleSet} (hs : Loaded s) (keep : Rule → Bool) : Loaded (s.retain keep)

namespace Loaded

variable {s : RuleSet}

theorem wellFormed (hs : s.Loaded) : s.WellFormed := by
  induction hs with
  | empty => exact wellFormed_empty
  | addAll _ h ih => exact yields_addAll ih _ _ _ _ h
  | retain _ keep ih => exact ih.retain keep

/-- The rules of a loaded set that are about paired flows have two labels. -/
theorem isPaired (hs : s.Loaded) : ∀ r ∈ s.rules, r.IsPaired := by
  induction hs with
  | empty => exact fun _ h => absurd h List.not_mem_nil
  | @addAll s s' ds t t' _ h ih =>
    refine Interning.yields_foldlM (P := fun s => ∀ r ∈ s.rules, r.IsPaired)
      (fun s d hs => ?_) ds ih t s' t' h
    refine Interning.yields_bind (Rule.yields_ofDeclaration d) fun r hr => ?_
    show Interning.Yields (liftM (s.add r)) _
    unfold add
    split
    · exact Interning.yields_throw
    · refine Interning.yields_pure fun r' hr' => ?_
      rcases List.mem_append.1 hr' with hr' | hr'
      · exact hs r' hr'
      · exact List.mem_singleton.1 hr' ▸ Rule.isPaired_of_hasLabels hr.2
  | retain _ keep ih =>
    intro r hr
    rw [retain_eq, rules_ofRules] at hr
    exact ih r (List.mem_filter.1 hr).1

end Loaded

/-! ### One rule -/

/-- What is launched comes of bytes from two sources and of a stream from another. -/
def launchDeclaration : RuleDeclaration where
  name := "launched"
  code := 4
  description := ""
  sources := none
  sinks := none
  transforms := none
  multiSources := some (OrdMap.ofList (fun _ later => later)
    [("bytes", ["Input", "Password"]), ("stream", ["Intent"])])
  partialSinks := some [.anyLabel "Launch"]
  effectSources := none

def launchRule : Rule where
  name := "launched"
  code := 4
  description := ""
  flow := .paired
    (OrdMap.ofList (fun _ later => later)
      [("bytes", OrdSet.ofList [⟨0⟩, ⟨1⟩]), ("stream", OrdSet.ofList [⟨2⟩])])
    (OrdSet.ofList [⟨3⟩, ⟨4⟩])
  transforms := none
  effectSources := none

def launchKinds : KindTable :=
  ⟨[.named "Input", .named "Password", .named "Intent", .half ⟨"Launch", "bytes"⟩,
    .half ⟨"Launch", "stream"⟩, .triggered ⟨"Launch", "bytes"⟩ 4,
    .triggered ⟨"Launch", "stream"⟩ 4]⟩

theorem loaded_launchRule : Loaded ((∅ : RuleSet).push launchRule) :=
  @Loaded.addAll ∅ _ [launchDeclaration] ∅ launchKinds .empty (by rfl)

end RuleSet

def Matcher.launching : Matcher := ⟨(∅ : RuleSet).push RuleSet.launchRule, RuleSet.launchKinds, 8⟩

def Method.launching : Method := ⟨⟨0⟩, "run", [], none, none⟩

def Observation.launch (half kind : Nat) : Observation where
  site := ⟨⟨0⟩, 0⟩
  callee := "launch"
  port := ⟨.argument kind, []⟩
  sink := .ofKind ⟨half⟩
  info := ∅
  sources := FrameSet.singleton (.ofKind ⟨kind⟩) ∅
  parameters := ∅

end TaintFlow
