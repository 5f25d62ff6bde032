import TaintFlow.Proofs.EffectChains
import TaintFlow.Proofs.OrderIndependence

/-!
Collections of issues. Issues with one key are merged into one, which stands for all of them: it has
their traces and features (`Issue.StandsFor`). Where they agree on what the key does not say, there
is one such issue, so that neither their order nor repetitions matter: `Issues.addAll_values`. The
trace that is shown for an issue is the least of its traces, by length and then step by step.
-/

namespace TaintFlow

/-! ### The least trace -/

namespace Trace

variable {ts : List Trace} {t : Trace}

theorem before_eq_false_of_length_lt {t u : Trace} (h : u.length < t.length) :
    before t u = false :=
  before_eq_false_iff_length.2 (.inl h)

/-- Of ascending traces the first one that is not longer than any other is not after any other. -/
theorem before_foldl_shorter (best : Option Trace)
    (hts : (best.toList ++ ts).Pairwise fun t u => compare t u = .lt)
    (h : ts.foldl shorter best = some t) : ∀ u ∈ best.toList ++ ts, before u t = false := by
  induction ts generalizing best with
  | nil =>
    obtain rfl : best = some t := h
    simp [before_self]
  | cons u ts ih =>
    cases best with
    | none => exact ih (some u) hts h
    | some b =>
      -- traces that come later are greater, and replace the best one only if they are shorter
      obtain ⟨hb, hrest⟩ := List.pairwise_cons.1 hts
      rw [List.foldl_cons, shorter, Option.any_some] at h
      split at h
      · next hle =>
        have hbefore : before u b = false := before_eq_false_iff_length.2 <| by
          rcases Nat.lt_or_eq_of_le (of_decide_eq_true hle) with hlt | heq
          · exact .inl hlt
          · exact .inr ⟨heq, by rw [hb u List.mem_cons_self]; rfl⟩
        obtain ⟨hbest, hall⟩ := List.forall_mem_cons.1 <| ih (some b)
          (List.pairwise_cons.2 ⟨fun v hv => hb v (List.mem_cons_of_mem u hv), hrest.of_cons⟩) h
        exact List.forall_mem_cons.2
          ⟨hbest, List.forall_mem_cons.2 ⟨before_trans hbefore hbest, hall⟩⟩
      · next hlt =>
        obtain ⟨hu, hall⟩ := List.forall_mem_cons.1 (ih (some u) hrest h)
        have hlt : u.length < b.length := by simpa using hlt
        exact List.forall_mem_cons.2
          ⟨before_trans (before_eq_false_of_length_lt hlt) hu, List.forall_mem_cons.2 ⟨hu, hall⟩⟩

def LeastOf (t : Trace) (ts : OrdSet Trace) : Prop :=
  t ∈ ts ∧ ∀ u ∈ ts,
    t.length < u.length ∨ t.length = u.length ∧ (compare t u).isLE = true

end Trace

namespace Issue

variable {is js : List Issue} {i m m' : Issue}

theorem primaryTrace?_eq_none_iff : i.primaryTrace? = none ↔ i.traces = ∅ := by
  have hsome : (∃ t, i.primaryTrace? = some t) ↔ ∃ t, t ∈ i.traces.toList :=
    Trace.exists_shortest?_iff
  rw [← not_iff_not, ← ne_eq, Option.ne_none_iff_exists', hsome]
  constructor
  · rintro ⟨t, ht⟩ hempty
    rw [hempty] at ht
    cases ht
  · intro hne
    by_contra hnone
    refine hne (OrdSet.ext fun t => ⟨fun ht => ?_, fun ht => absurd ht (OrdSet.not_mem_empty t)⟩)
    exact absurd ⟨t, OrdSet.mem_toList.2 ht⟩ hnone

theorem leastOf_of_primaryTrace? {t : Trace} (h : i.primaryTrace? = some t) :
    t.LeastOf i.traces := by
  refine ⟨OrdSet.mem_toList.1 (Trace.mem_of_shortest? h), fun u hu => ?_⟩
  exact Trace.before_eq_false_iff_length.1
    (Trace.before_foldl_shorter none i.traces.pairwise_toList h u (OrdSet.mem_toList.2 hu))

/-! ### Issues that stand for others -/

/-- Issues agree on what the key does not say, traces and features apart. -/
def Agrees (i j : Issue) : Prop := i.ruleName = j.ruleName ∧ i.line = j.line ∧ i.callee = j.callee

instance (i j : Issue) : Decidable (i.Agrees j) := inferInstanceAs (Decidable (_ ∧ _ ∧ _))

def Consistent (is : List Issue) : Prop := ∀ i ∈ is, ∀ j ∈ is, i.key = j.key → i.Agrees j

instance (is : List Issue) : Decidable (Consistent is) :=
  inferInstanceAs (Decidable (∀ i ∈ is, ∀ j ∈ is, i.key = j.key → i.Agrees j))

/-- An issue has the key of some issues of a list, agrees with them, and has the traces and features
of all of them. -/
structure StandsFor (m : Issue) (is : List Issue) : Prop where
  listed : ∃ i ∈ is, i.key = m.key
  agrees : ∀ i ∈ is, i.key = m.key → i.Agrees m
  traces : ∀ t, t ∈ m.traces ↔ ∃ i ∈ is, i.key = m.key ∧ t ∈ i.traces
  features : ∀ f, f ∈ m.features ↔ ∃ i ∈ is, i.key = m.key ∧ f ∈ i.features

theorem StandsFor.congr (hm : m.StandsFor is) (h : ∀ i, i ∈ js ↔ i ∈ is) : m.StandsFor js where
  listed := by simpa only [h] using hm.listed
  agrees i hi := hm.agrees i ((h i).1 hi)
  traces t := by simpa only [h] using hm.traces t
  features f := by simpa only [h] using hm.features f

/-- One issue for every key stands for the issues of a list. -/
theorem StandsFor.unique (hm : m.StandsFor is) (hm' : m'.StandsFor is) (hkey : m.key = m'.key) :
    m = m' := by
  obtain ⟨i, hi, hik⟩ := hm.listed
  obtain ⟨hname, hline, hcallee⟩ := hm.agrees i hi hik
  obtain ⟨hname', hline', hcallee'⟩ := hm'.agrees i hi (hik.trans hkey)
  have htraces : m.traces = m'.traces := OrdSet.ext fun t => by
    rw [hm.traces, hm'.traces, hkey]
  have hfeatures : m.features = m'.features := OrdSet.ext fun f => by
    rw [hm.features, hm'.features, hkey]
  obtain ⟨hcode, hsources, hsink, hmethod, hposition⟩ :
      m.ruleCode = m'.ruleCode ∧ m.sourceKinds = m'.sourceKinds ∧ m.sinkKind = m'.sinkKind ∧
        m.method = m'.method ∧ m.position = m'.position := by
    simpa [key] using hkey
  cases m
  cases m'
  simp_all

/-- Merging changes nothing but traces and features. -/
theorem merged_cons (i : Issue) (is : List Issue) :
    ∃ m, merged (i :: is) = some m ∧ m.key = i.key ∧ i.Agrees m := by
  suffices hfold : ∀ own : Issue, own.key = i.key ∧ i.Agrees own →
      ∃ m, is.foldl (fun own i => some (own.elim i (merge · i))) (some own) = some m ∧
        m.key = i.key ∧ i.Agrees m from hfold i ⟨rfl, rfl, rfl, rfl⟩
  induction is with
  | nil => exact fun own hown => ⟨own, rfl, hown⟩
  | cons j is ih => exact fun own hown => ih (own.merge j) hown

theorem merged_eq_none_iff : merged is = none ↔ is = [] := by
  cases is with
  | nil => exact ⟨fun _ => rfl, fun _ => rfl⟩
  | cons i is =>
    obtain ⟨m, hm, -⟩ := merged_cons i is
    simp [hm]

/-- What consistent issues with a key are merged into has the key and stands for them. -/
theorem standsFor_of_merged (his : Consistent is) {k : Key}
    (hm : merged (is.filter fun i => i.key = k) = some m) : m.key = k ∧ m.StandsFor is := by
  have hmem (i : Issue) : i ∈ is.filter (fun i => i.key = k) ↔ i ∈ is ∧ i.key = k := by
    simp
  -- nothing is merged out of no issues, so there is a first one with the key
  obtain ⟨i, hi, hik, hkey, hagrees⟩ : ∃ i ∈ is, i.key = k ∧ m.key = i.key ∧ i.Agrees m := by
    cases hfilter : is.filter fun i => i.key = k with
    | nil =>
      rw [hfilter] at hm
      cases hm
    | cons i rest =>
      obtain ⟨m', hm', hkey, hagrees⟩ := merged_cons i rest
      obtain rfl : m' = m := Option.some.inj (hm'.symm.trans (hfilter ▸ hm))
      obtain ⟨hi, hik⟩ := (hmem i).1 (hfilter ▸ List.mem_cons_self)
      exact ⟨i, hi, hik, hkey, hagrees⟩
  have hmk : m.key = k := hkey.trans hik
  have hall {α : Type} [LinearOrd α] {part : Issue → OrdSet α}
      (hpart : ∀ i j, part (merge i j) = part i ∪ part j) (a : α) :
      a ∈ part m ↔ ∃ i ∈ is, i.key = m.key ∧ a ∈ part i := by
    have hmerged : (∃ j, merged (is.filter fun i => i.key = k) = some j ∧ a ∈ part j) ↔
        ∃ i ∈ is.filter (fun i => i.key = k), a ∈ part i := mem_merged hpart
    rw [hm] at hmerged
    simpa [hmem, hmk, and_assoc] using hmerged
  refine ⟨hmk, ⟨i, hi, hik.trans hmk.symm⟩, fun j hj hjk => ?_, fun t => ?_, fun f => ?_⟩
  · obtain ⟨hname, hline, hcallee⟩ := his j hj i hi (hjk.trans (hmk.trans hik.symm))
    obtain ⟨hname', hline', hcallee'⟩ := hagrees
    exact ⟨hname.trans hname', hline.trans hline', hcallee.trans hcallee'⟩
  · exact hall (fun _ _ => rfl) t
  · exact hall (fun _ _ => rfl) f

end Issue

namespace Issues

variable {is js : List Issue}

theorem get?_addAll (is : List Issue) (k : Issue.Key) :
    ((∅ : Issues).addAll is).get? k = Issue.merged (is.filter fun i => i.key = k) :=
  OrdMap.get?_foldl_addKeyed Issue.key Issue.merge is ∅ k

theorem get?_addAll_eq_none_iff {k : Issue.Key} :
    ((∅ : Issues).addAll is).get? k = none ↔ ∀ i ∈ is, i.key ≠ k := by
  rw [get?_addAll, Issue.merged_eq_none_iff]
  simp

theorem isNew_addAll_iff {i : Issue} :
    ((∅ : Issues).addAll is).isNew i = true ↔ ∀ j ∈ is, j.key ≠ i.key := by
  rw [isNew, Bool.not_eq_true', OrdMap.contains, Option.isSome_eq_false_iff,
    Option.isNone_iff_eq_none, get?_addAll_eq_none_iff]

/-- What consistent issues are merged into stands for them, under its own key. -/
theorem standsFor_of_get? (his : Issue.Consistent is) {k : Issue.Key} {m : Issue}
    (h : ((∅ : Issues).addAll is).get? k = some m) : m.key = k ∧ m.StandsFor is :=
  Issue.standsFor_of_merged his (get?_addAll is k ▸ h)

/-- Neither the order of issues nor repetitions matter. -/
theorem addAll_eq_of_mem_iff (his : Issue.Consistent is) (h : ∀ i, i ∈ js ↔ i ∈ is) :
    (∅ : Issues).addAll js = (∅ : Issues).addAll is := by
  have hjs : Issue.Consistent js := fun i hi j hj => his i ((h i).1 hi) j ((h j).1 hj)
  refine OrdMap.ext fun k => ?_
  cases hm : ((∅ : Issues).addAll is).get? k with
  | none =>
    rw [get?_addAll_eq_none_iff] at hm ⊢
    exact fun i hi => hm i ((h i).1 hi)
  | some m =>
    cases hm' : ((∅ : Issues).addAll js).get? k with
    | none =>
      rw [get?_addAll_eq_none_iff] at hm'
      obtain ⟨hkey, hstands⟩ := standsFor_of_get? his hm
      obtain ⟨i, hi, hik⟩ := hstands.listed
      exact absurd (hik.trans hkey) (hm' i ((h i).2 hi))
    | some m' =>
      obtain ⟨hkey, hstands⟩ := standsFor_of_get? his hm
      obtain ⟨hkey', hstands'⟩ := standsFor_of_get? hjs hm'
      rw [(hstands'.congr fun i => (h i).symm).unique hstands (hkey'.trans hkey.symm)]

/-- Issues that agree if they have the same key are merged into one for each key, in strictly
ascending order of the keys. It stands for all issues with the key, whatever their order and however
often they come. An issue is new exactly if none with its key was added before, and the trace shown
for an issue is the least one that it has. -/
theorem addAll_values (is : List Issue) (his : Issue.Consistent is) :
    (((∅ : Issues).addAll is).values.map Issue.key).Pairwise (fun k k' => compare k k' = .lt) ∧
      (∀ k, k ∈ ((∅ : Issues).addAll is).values.map Issue.key ↔ k ∈ is.map Issue.key) ∧
      (∀ m ∈ ((∅ : Issues).addAll is).values, m.StandsFor is) ∧
      (∀ js, (∀ i, i ∈ js ↔ i ∈ is) →
        ((∅ : Issues).addAll js).values = ((∅ : Issues).addAll is).values) ∧
      (∀ before i rest, is = before ++ i :: rest →
        (((∅ : Issues).addAll before).isNew i = true ↔ ∀ j ∈ before, j.key ≠ i.key)) ∧
      ∀ m ∈ ((∅ : Issues).addAll is).values, (m.primaryTrace? = none ↔ m.traces = ∅) ∧
        ∀ t, m.primaryTrace? = some t → t.LeastOf m.traces := by
  have hkeys : ((∅ : Issues).addAll is).values.map Issue.key = ((∅ : Issues).addAll is).keys := by
    rw [OrdMap.keys, (Analysis.keyed_issues is OrdMap.keyed_empty).entries, List.map_map]
    rfl
  refine ⟨?_, fun k => ?_, fun m hm => ?_, fun js h => ?_, fun before i rest _ => isNew_addAll_iff,
    fun m _ => ⟨Issue.primaryTrace?_eq_none_iff, fun t => Issue.leastOf_of_primaryTrace?⟩⟩
  · rw [hkeys]
    exact List.pairwise_map.2 ((∅ : Issues).addAll is).ascending
  · rw [hkeys, OrdMap.mem_keys, ← Option.isSome_iff_exists, Option.isSome_iff_ne_none, ne_eq,
      get?_addAll_eq_none_iff]
    simp
  · obtain ⟨k, hk⟩ := OrdMap.mem_values.1 hm
    exact (standsFor_of_get? his hk).2
  · rw [addAll_eq_of_mem_iff his h]

def queryAt (position : Nat) (trace : Trace) : Issue where
  ruleCode := 1
  ruleName := "injection"
  sourceKinds := OrdSet.ofList ["Input"]
  sinkKind := "Query"
  method := "main"
  position := position
  line := none
  callee := "run"
  traces := OrdSet.ofList [trace]
  features := ∅

/-- Two flows into one call are one issue, and only the first of them is new. -/
theorem addAll_values_queryAt :
    Issue.Consistent [queryAt 2 [⟨"main", 2, "run", "Argument(0)"⟩], queryAt 2 [], queryAt 1 []] ∧
      ((∅ : Issues).addAll [queryAt 1 [], queryAt 2 [], queryAt 1 [],
          queryAt 2 [⟨"main", 2, "run", "Argument(0)"⟩]]).values =
        ((∅ : Issues).addAll [queryAt 2 [⟨"main", 2, "run", "Argument(0)"⟩], queryAt 2 [],
          queryAt 1 []]).values ∧
      ¬ ((∅ : Issues).addAll [queryAt 2 [⟨"main", 2, "run", "Argument(0)"⟩]]).isNew
        (queryAt 2 []) :=
  have h := addAll_values
    [queryAt 2 [⟨"main", 2, "run", "Argument(0)"⟩], queryAt 2 [], queryAt 1 []] (by decide)
  ⟨by decide, h.2.2.2.1 _ (by simp; tauto), fun hnew =>
    (h.2.2.2.2.1 [_] _ [_] rfl).1 hnew _ List.mem_cons_self rfl⟩

end Issues

end TaintFlow
