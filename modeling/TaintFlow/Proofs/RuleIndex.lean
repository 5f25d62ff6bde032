import Mathlib.Data.List.Induction
import Mathlib.Data.List.Nodup
import TaintFlow.Proofs.Programs
import TaintFlow.RuleSet

/-!
Rule sets as they are loaded, and what their indexes find. A well-formed set is built by adding its
rules one after another, and their codes are distinct. Its lookups are plain searches through the
list: `get?` finds the rule with the code, `rulesFor` and `rulesForHalf` the rules with the key, in
the order of the list. Hence a lookup in a retained set is a lookup in the full set, of which the
kept rules are left.
-/

namespace TaintFlow

namespace RuleSet

def ofRules (rs : List Rule) : RuleSet := rs.foldl push ∅

theorem ofRules_concat (rs : List Rule) (r : Rule) : ofRules (rs ++ [r]) = (ofRules rs).push r := by
  rw [ofRules, List.foldl_append]
  rfl

theorem rules_ofRules (rs : List Rule) : (ofRules rs).rules = rs := by
  induction rs using List.reverseRecOn with
  | nil => rfl
  | append_singleton rs r ih =>
    rw [ofRules_concat]
    exact congrArg (· ++ [r]) ih

/-- A set built from its list of rules, which have distinct codes. -/
structure WellFormed (s : RuleSet) : Prop where
  built : s = ofRules s.rules
  codes : (s.rules.map Rule.code).Nodup

/-! ### Indexes -/

section

variable {κ : Type} [DecidableEq κ]

/-- What a list of rules has under a key; a rule comes as often as it has the key. -/
def under (keysOf : Rule → List κ) (rs : List Rule) (k : κ) : List Rule :=
  rs.flatMap fun r => ((keysOf r).filter (· = k)).map fun _ => r

variable {keysOf : Rule → List κ} {rs : List Rule}

/-- Among the rules under a key, those that satisfy a test are the ones under it among those that
satisfy the test. -/
theorem under_filter (keep : Rule → Bool) (k : κ) :
    under keysOf (rs.filter keep) k = (under keysOf rs k).filter keep := by
  induction rs with
  | nil => rfl
  | cons r rs ih =>
    have hhead : (((keysOf r).filter (· = k)).map fun _ => r).filter keep =
        if keep r then ((keysOf r).filter (· = k)).map fun _ => r else [] := by
      cases h : keep r <;> simp [h]
    have hunder : under keysOf (r :: rs) k =
        (((keysOf r).filter (· = k)).map fun _ => r) ++ under keysOf rs k := rfl
    rw [hunder, List.filter_append, ← ih, hhead]
    cases h : keep r
    · simp [h]
    · simp [h, under]

theorem mem_of_mem_under {k : κ} {r : Rule} (h : r ∈ under keysOf rs k) : r ∈ rs := by
  obtain ⟨r', hr', hmem⟩ := List.mem_flatMap.1 h
  obtain ⟨_, -, rfl⟩ := List.mem_map.1 hmem
  exact hr'

variable [LinearOrd κ] {m : OrdMap κ (List Nat)}

structure Indexed (keysOf : Rule → List κ) (rs : List Rule) (m : OrdMap κ (List Nat)) :
    Prop where
  bounds : ∀ k, ∀ place ∈ m.getD k [], place < rs.length
  finds : ∀ k, (m.getD k []).filterMap (rs[·]?) = under keysOf rs k

theorem getD_foldl_addPlace (place : Nat) (keys : List κ) (m : OrdMap κ (List Nat)) (k : κ) :
    (keys.foldl (addPlace place) m).getD k [] =
      m.getD k [] ++ (keys.filter (· = k)).map fun _ => place := by
  induction keys generalizing m with
  | nil => simp
  | cons key keys ih =>
    have hadd : (addPlace place m key).getD k [] =
        if k = key then m.getD k [] ++ [place] else m.getD k [] := by
      rw [OrdMap.getD, addPlace, OrdMap.get?_update]
      split
      · next h => rw [h]; rfl
      · rfl
    rw [List.foldl_cons, ih, hadd]
    by_cases h : key = k
    · simp [h]
    · simp [h, Ne.symm h]

theorem Indexed.empty : Indexed keysOf [] ∅ where
  bounds _ _ h := by cases h
  finds _ := rfl

theorem Indexed.push (h : Indexed keysOf rs m) (r : Rule) :
    Indexed keysOf (rs ++ [r]) ((keysOf r).foldl (addPlace rs.length) m) where
  bounds k place hplace := by
    rw [getD_foldl_addPlace] at hplace
    rw [List.length_append, List.length_singleton]
    rcases List.mem_append.1 hplace with hplace | hplace
    · exact Nat.lt_succ_of_lt (h.bounds k place hplace)
    · obtain ⟨_, -, rfl⟩ := List.mem_map.1 hplace
      exact Nat.lt_succ_self _
  finds k := by
    have hold : (m.getD k []).filterMap ((rs ++ [r])[·]?) = (m.getD k []).filterMap (rs[·]?) :=
      List.filterMap_congr fun place hplace => List.getElem?_append_left (h.bounds k place hplace)
    have hnew : (((keysOf r).filter (· = k)).map fun _ => rs.length).filterMap ((rs ++ [r])[·]?) =
        ((keysOf r).filter (· = k)).map fun _ => r := by
      simp
    rw [getD_foldl_addPlace, List.filterMap_append, hold, hnew, h.finds, under, under,
      List.flatMap_append]
    simp

end

theorem indexed_bySourceSink (rs : List Rule) :
    Indexed sourceSinkKeys rs (ofRules rs).bySourceSink := by
  induction rs using List.reverseRecOn with
  | nil => exact .empty
  | append_singleton rs r ih =>
    rw [ofRules_concat, push, rules_ofRules]
    exact ih.push r

theorem indexed_byHalf (rs : List Rule) : Indexed halfKeys rs (ofRules rs).byHalf := by
  induction rs using List.reverseRecOn with
  | nil => exact .empty
  | append_singleton rs r ih =>
    rw [ofRules_concat, push, rules_ofRules]
    exact ih.push r

theorem rulesFor_ofRules (rs : List Rule) (source sink : KindId) :
    (ofRules rs).rulesFor source sink = under sourceSinkKeys rs (source, sink) := by
  rw [← (indexed_bySourceSink rs).finds, rulesFor, fetch, rules_ofRules]
  rfl

theorem rulesForHalf_ofRules (rs : List Rule) (sink : KindId) :
    (ofRules rs).rulesForHalf sink = under halfKeys rs sink := by
  rw [← (indexed_byHalf rs).finds, rulesForHalf, fetch, rules_ofRules]
  rfl

/-! ### Codes -/

theorem byCode_lt {rs : List Rule} {code : Int} {place : Nat}
    (h : (ofRules rs).byCode.get? code = some place) : place < rs.length := by
  induction rs using List.reverseRecOn with
  | nil => cases h
  | append_singleton rs r ih =>
    rw [ofRules_concat, push, OrdMap.get?_insert, rules_ofRules] at h
    rw [List.length_append, List.length_singleton]
    split at h
    · cases h
      exact Nat.lt_succ_self _
    · exact Nat.lt_succ_of_lt (ih h)

theorem get?_concat (rs : List Rule) (r : Rule) (code : Int) :
    (ofRules (rs ++ [r])).get? code = if code = r.code then some r else (ofRules rs).get? code := by
  rw [get?, rules_ofRules, ofRules_concat, push, OrdMap.get?_insert, rules_ofRules]
  split
  · simp
  · rw [get?, rules_ofRules]
    cases hplace : (ofRules rs).byCode.get? code with
    | none => rfl
    | some place => exact List.getElem?_append_left (byCode_lt hplace)

theorem get?_ofRules {rs : List Rule} (h : (rs.map Rule.code).Nodup) {code : Int} {r : Rule} :
    (ofRules rs).get? code = some r ↔ r ∈ rs ∧ r.code = code := by
  induction rs using List.reverseRecOn with
  | nil =>
    constructor
    · rintro ⟨⟩
    · rintro ⟨⟨⟩, -⟩
  | append_singleton rs last ih =>
    rw [List.map_append, List.nodup_append] at h
    obtain ⟨hrs, -, hlast⟩ := h
    have hne (hr : r ∈ rs) : r.code ≠ last.code :=
      hlast r.code (List.mem_map_of_mem hr) last.code (List.mem_singleton.2 rfl)
    rw [get?_concat, List.mem_append, List.mem_singleton]
    split
    · next hcode =>
      subst hcode
      constructor
      · rintro ⟨⟩
        exact ⟨.inr rfl, rfl⟩
      · rintro ⟨hr | rfl, hcode⟩
        · exact absurd hcode (hne hr)
        · rfl
    · next hcode =>
      rw [ih hrs]
      constructor
      · exact fun ⟨hr, hr'⟩ => ⟨.inl hr, hr'⟩
      · rintro ⟨hr | rfl, hr'⟩
        · exact ⟨hr, hr'⟩
        · exact absurd hr'.symm hcode

/-! ### Well-formed sets -/

theorem retain_eq (s : RuleSet) (keep : Rule → Bool) : s.retain keep = ofRules (s.rules.filter keep) :=
  rfl

theorem wellFormed_empty : (∅ : RuleSet).WellFormed where
  built := rfl
  codes := List.nodup_nil

namespace WellFormed

variable {s : RuleSet} (hs : s.WellFormed)

include hs

theorem get?_eq_some_iff {code : Int} {r : Rule} :
    s.get? code = some r ↔ r ∈ s.rules ∧ r.code = code := by
  rw [hs.built, rules_ofRules]
  exact get?_ofRules hs.codes

theorem get?_code {r : Rule} (h : r ∈ s.rules) : s.get? r.code = some r :=
  hs.get?_eq_some_iff.2 ⟨h, rfl⟩

theorem push {r : Rule} (h : s.get? r.code = none) : (s.push r).WellFormed where
  built := by
    show s.push r = ofRules (s.rules ++ [r])
    rw [ofRules_concat, ← hs.built]
  codes := by
    show ((s.rules ++ [r]).map Rule.code).Nodup
    rw [List.map_append, List.nodup_append]
    refine ⟨hs.codes, List.nodup_singleton _, fun code hcode code' hcode' heq => ?_⟩
    obtain ⟨r', hr', rfl⟩ := List.mem_map.1 hcode
    obtain rfl : code' = r.code := by simpa using hcode'
    rw [← heq, hs.get?_code hr'] at h
    cases h

theorem retain (keep : Rule → Bool) : (s.retain keep).WellFormed where
  built := by rw [retain_eq, rules_ofRules]
  codes := by
    rw [retain_eq, rules_ofRules]
    exact (List.filter_sublist.map Rule.code).nodup hs.codes

theorem get?_retain (keep : Rule → Bool) (code : Int) :
    (s.retain keep).get? code = (s.get? code).filter keep := by
  ext r : 1
  rw [(hs.retain keep).get?_eq_some_iff, Option.filter_eq_some_iff, hs.get?_eq_some_iff, retain_eq,
    rules_ofRules, List.mem_filter]
  exact and_right_comm

theorem rulesFor_retain (keep : Rule → Bool) (source sink : KindId) :
    (s.retain keep).rulesFor source sink = (s.rulesFor source sink).filter keep := by
  rw [hs.built, retain_eq, rulesFor_ofRules, rulesFor_ofRules, rules_ofRules, under_filter]

theorem rulesForHalf_retain (keep : Rule → Bool) (sink : KindId) :
    (s.retain keep).rulesForHalf sink = (s.rulesForHalf sink).filter keep := by
  rw [hs.built, retain_eq, rulesForHalf_ofRules, rulesForHalf_ofRules, rules_ofRules, under_filter]

theorem mem_of_mem_rulesFor {source sink : KindId} {r : Rule} (h : r ∈ s.rulesFor source sink) :
    r ∈ s.rules := by
  rw [hs.built, rulesFor_ofRules] at h
  exact mem_of_mem_under h

theorem mem_of_mem_rulesForHalf {sink : KindId} {r : Rule} (h : r ∈ s.rulesForHalf sink) :
    r ∈ s.rules := by
  rw [hs.built, rulesForHalf_ofRules] at h
  exact mem_of_mem_under h

end WellFormed

/-- Adding declarations keeps a set well-formed. -/
theorem yields_addAll {s : RuleSet} (hs : s.WellFormed) (ds : List RuleDeclaration) :
    (s.addAll ds).Yields WellFormed := by
  refine Interning.yields_foldlM (fun s d hs => ?_) ds hs
  refine Interning.yields_bind (Interning.yields_true _) fun r _ => ?_
  show Interning.Yields (liftM (s.add r)) WellFormed
  cases hget : s.get? r.code with
  | some first =>
    rw [add, hget]
    exact Interning.yields_throw
  | none =>
    rw [add, hget]
    exact Interning.yields_pure (hs.push hget)

end RuleSet

end TaintFlow
