import TaintFlow.Proofs.DirectFlows

/-!
Histories of rule sets. Rules are added, where a rule with a code that is taken is refused, and
rules that fail a test are dropped. Beside the set with its indexes the same changes are made to a
plain list (`RuleSet.storedAfter`). After every history the set has the rules of the list, and all
its lookups are scans of the list: `RuleSet.after_lookups`.
-/

namespace TaintFlow

def Rule.HasHalf (r : Rule) (sink : KindId) : Prop :=
  match r.flow with
  | .direct _ _ => False
  | .paired _ sinks => sink ∈ sinks

namespace RuleSet

theorem mem_halfKeys {r : Rule} {sink : KindId} : sink ∈ halfKeys r ↔ r.HasHalf sink := by
  unfold halfKeys Rule.HasHalf
  cases r.flow with
  | direct _ _ => exact List.mem_nil_iff sink
  | paired _ _ => exact OrdSet.mem_toList

instance (r : Rule) (source sink : KindId) : Decidable (r.Relates source sink) :=
  decidable_of_iff _ mem_sourceSinkKeys

instance (r : Rule) (sink : KindId) : Decidable (r.HasHalf sink) := decidable_of_iff _ mem_halfKeys

/-! ### Lookups as scans -/

theorem of_find?_code {rs : List Rule} {code : Int} {r : Rule}
    (h : (rs.find? fun r => r.code = code) = some r) : r ∈ rs ∧ r.code = code :=
  ⟨List.mem_of_find?_eq_some h, by simpa using List.find?_some h⟩

/-- Every place in an index is the place of a rule. -/
structure InRange (s : RuleSet) : Prop where
  byCode : ∀ code place, s.byCode.get? code = some place → place < s.rules.length
  bySourceSink : ∀ key, ∀ place ∈ s.bySourceSink.getD key [], place < s.rules.length
  byHalf : ∀ sink, ∀ place ∈ s.byHalf.getD sink [], place < s.rules.length

theorem inRange_ofRules (rs : List Rule) : (ofRules rs).InRange := by
  constructor <;> rw [rules_ofRules]
  · exact fun _ _ => byCode_lt
  · exact (indexed_bySourceSink rs).bounds
  · exact (indexed_byHalf rs).bounds

namespace WellFormed

variable {s : RuleSet} (hs : s.WellFormed)

include hs

theorem inRange : s.InRange := hs.built.symm ▸ inRange_ofRules s.rules

theorem rulesFor_eq_filter (source sink : KindId) :
    s.rulesFor source sink = s.rules.filter fun r => r.Relates source sink := by
  conv => lhs; rw [hs.built, rulesFor_ofRules]
  rw [under_eq_filter nodup_sourceSinkKeys]
  simp only [mem_sourceSinkKeys]

theorem rulesForHalf_eq_filter (sink : KindId) :
    s.rulesForHalf sink = s.rules.filter fun r => r.HasHalf sink := by
  conv => lhs; rw [hs.built, rulesForHalf_ofRules]
  rw [under_eq_filter nodup_halfKeys]
  simp only [mem_halfKeys]

theorem get?_eq_find? (code : Int) : s.get? code = s.rules.find? fun r => r.code = code := by
  cases hfind : s.rules.find? fun r => r.code = code with
  | none =>
    refine Option.eq_none_iff_forall_ne_some.2 fun r hr => ?_
    obtain ⟨hmem, hcode⟩ := hs.get?_eq_some_iff.1 hr
    exact List.find?_eq_none.1 hfind r hmem (decide_eq_true hcode)
  | some r => exact hs.get?_eq_some_iff.2 (of_find?_code hfind)

/-- A rule is refused where its code is taken, and is put at the end otherwise. -/
theorem add_eq (r : Rule) : s.add r =
    match s.rules.find? fun first => first.code = r.code with
    | some first => .error (.duplicateCode r.code first.name r.name)
    | none => .ok (s.push r) := by
  rw [add, hs.get?_eq_find?]
  cases s.rules.find? fun first => first.code = r.code <;> rfl

end WellFormed

/-! ### Histories -/

inductive Change where
  | add (r : Rule)
  | retain (keep : Rule → Bool)

/-- Makes a change. A rule that is refused leaves the set as it is. -/
def change (s : RuleSet) : Change → RuleSet
  | .add r => (s.add r).toOption.getD s
  | .retain keep => s.retain keep

def Change.onList (rs : List Rule) : Change → List Rule
  | .add r => if ∃ first ∈ rs, first.code = r.code then rs else rs ++ [r]
  | .retain keep => rs.filter keep

def after (changes : List Change) : RuleSet := changes.foldl change ∅

/-- The stored rules after a history, in the order in which they were added. -/
def storedAfter (changes : List Change) : List Rule := changes.foldl Change.onList []

theorem after_concat (changes : List Change) (c : Change) :
    after (changes ++ [c]) = (after changes).change c :=
  List.foldl_concat ..

theorem storedAfter_concat (changes : List Change) (c : Change) :
    storedAfter (changes ++ [c]) = c.onList (storedAfter changes) :=
  List.foldl_concat ..

namespace WellFormed

variable {s : RuleSet} (hs : s.WellFormed)

include hs

theorem change (c : Change) : (s.change c).WellFormed := by
  cases c with
  | add r =>
    rw [RuleSet.change, add]
    split
    · exact hs
    · next hget => exact hs.push hget
  | retain keep => exact hs.retain keep

/-- A change of the set is the same change of its list of rules. -/
theorem rules_change (c : Change) : (s.change c).rules = c.onList s.rules := by
  cases c with
  | add r =>
    rw [RuleSet.change, hs.add_eq, Change.onList]
    cases hfind : s.rules.find? fun first => first.code = r.code with
    | none =>
      have hfree : ¬ ∃ first ∈ s.rules, first.code = r.code := fun ⟨first, hmem, hcode⟩ =>
        List.find?_eq_none.1 hfind first hmem (decide_eq_true hcode)
      rw [if_neg hfree]
      rfl
    | some first =>
      rw [if_pos ⟨first, of_find?_code hfind⟩]
      rfl
  | retain keep => exact rules_ofRules _

end WellFormed

theorem wellFormed_after (changes : List Change) : (after changes).WellFormed :=
  List.foldlRecOn changes _ wellFormed_empty fun _ hs c _ => hs.change c

theorem rules_after (changes : List Change) : (after changes).rules = storedAfter changes := by
  induction changes using List.reverseRecOn with
  | nil => rfl
  | append_singleton changes c ih =>
    rw [after_concat, storedAfter_concat, (wellFormed_after changes).rules_change, ih]

/-- After every history, every place in an index is the place of a rule, and lookups in the set are
scans of the rules that it stores, whose codes are distinct: `rulesFor` finds the rules about a
source and a sink, `rulesForHalf` those that have a half among their sinks, both in the order in
which they were added, and `get?` the rule with a code. A rule with a new code is added; one whose
code is taken is refused, and the set stays what it was. -/
theorem after_lookups (changes : List Change) :
    (after changes).InRange ∧ (after changes).rules = storedAfter changes ∧
      ((storedAfter changes).map Rule.code).Nodup ∧
      (∀ source sink, (after changes).rulesFor source sink =
        (storedAfter changes).filter fun r => r.Relates source sink) ∧
      (∀ sink, (after changes).rulesForHalf sink =
        (storedAfter changes).filter fun r => r.HasHalf sink) ∧
      (∀ code, (after changes).get? code =
        (storedAfter changes).find? fun r => r.code = code) ∧
      ∀ r, match (storedAfter changes).find? fun first => first.code = r.code with
        | some first =>
          (after changes).add r = .error (.duplicateCode r.code first.name r.name) ∧
            after (changes ++ [.add r]) = after changes
        | none => (after changes).add r = .ok (after (changes ++ [.add r])) := by
  have hs := wellFormed_after changes
  rw [← rules_after]
  refine ⟨hs.inRange, rfl, hs.codes, hs.rulesFor_eq_filter, hs.rulesForHalf_eq_filter,
    hs.get?_eq_find?, fun r => ?_⟩
  rw [after_concat, change, hs.add_eq]
  split
  · exact ⟨rfl, rfl⟩
  · rfl

-- the second rule is refused, since the code is taken, and has a place when the first one is gone
example :
    let rule (name : String) (source : Nat) : Rule :=
      ⟨name, 1, "", .direct (OrdSet.ofList [⟨source⟩]) (OrdSet.ofList [⟨2⟩]), none, none⟩
    let s := after [.add (rule "first" 0), .add (rule "second" 1), .retain (·.name != "first"),
      .add (rule "second" 1)]
    s.rulesFor ⟨0⟩ ⟨2⟩ = [] ∧ s.rulesFor ⟨1⟩ ⟨2⟩ = [rule "second" 1] ∧
      s.get? 1 = some (rule "second" 1) := by
  decide

end RuleSet

end TaintFlow
