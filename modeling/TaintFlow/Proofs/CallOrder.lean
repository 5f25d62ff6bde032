import Mathlib.Data.List.Nodup
import Mathlib.Data.List.Perm.Subperm
import Mathlib.Logic.Relation
import TaintFlow.CallGraph
import TaintFlow.Proofs.Programs

/-!
The order in which components are analyzed. `CallGraph.reach` finds exactly the methods that calls
lead to, so a component is a class of methods that reach each other. A caller outside the component
of its callee reaches strictly more methods than the callee, hence the components are listed callees
first, and so they are level by level: `calleesFirst_levels`.
-/

namespace TaintFlow

namespace OrdSet

variable {α : Type} [LinearOrd α]

theorem isEmpty_iff {s : OrdSet α} : s.isEmpty = true ↔ ∀ a, ¬ a ∈ s := by
  rw [isEmpty, OrdMap.isEmpty_iff]
  refine forall_congr' fun a => ?_
  show _ ↔ ¬ (s.elements.get? a).isSome = true
  cases s.elements.get? a <;> simp

theorem not_contains_iff {s : OrdSet α} {a : α} : (!s.contains a) = true ↔ ¬ a ∈ s := by
  rw [Bool.not_eq_true', ← Bool.not_eq_true]
  rfl

theorem fst_le_of_compare_lt {m n : Nat} {a b : α} (h : compare (m, a) (n, b) = .lt) : m ≤ n := by
  change (compare m n).then (compare a b) = .lt at h
  cases hc : compare m n with
  | lt => exact Nat.le_of_lt (Nat.compare_eq_lt.1 hc)
  | eq => exact Nat.le_of_eq (Nat.compare_eq_eq.1 hc)
  | gt => simp [hc] at h

theorem size_lt_size {s t : OrdSet α} (h : ∀ a ∈ s, a ∈ t) {a : α} (ha : a ∈ t)
    (hnot : ¬ a ∈ s) : s.size < t.size := by
  rw [size_eq_length, size_eq_length]
  have hnodup : (a :: s.toList).Nodup :=
    List.nodup_cons.2 ⟨fun hmem => hnot (mem_toList.1 hmem), s.nodup_toList⟩
  refine (List.subperm_of_subset hnodup fun b hb => ?_).length_le
  rcases List.mem_cons.1 hb with rfl | hb
  · exact mem_toList.2 ha
  · exact mem_toList.2 (h b (mem_toList.1 hb))

end OrdSet

namespace CallGraph

variable {g : CallGraph}

def Calls (g : CallGraph) (a b : MethodId) : Prop := ∃ n, (b, n) ∈ g.callees a

def Reaches (g : CallGraph) : MethodId → MethodId → Prop := Relation.ReflTransGen g.Calls

def Closed (g : CallGraph) : Prop := ∀ a b, g.Calls a b → b ∈ g.methods

theorem mem_map_callees {a b : MethodId} : b ∈ (g.callees a).map Prod.fst ↔ g.Calls a b := by
  simp [Calls]

/-! ### Reachability -/

def unseen (g : CallGraph) (seen : OrdSet MethodId) : List MethodId :=
  g.methods.filter fun m => !seen.contains m

theorem unseen_lt {seen seen' : OrdSet MethodId} (h : ∀ k ∈ seen, k ∈ seen') {m : MethodId}
    (hm : m ∈ g.methods) (hnew : m ∈ seen') (hold : ¬ m ∈ seen) :
    (g.unseen seen').length < (g.unseen seen).length := by
  have hsub : (m :: g.unseen seen').Nodup := by
    refine List.nodup_cons.2 ⟨fun hmem => ?_, g.calls.nodup_keys.filter _⟩
    exact OrdSet.not_contains_iff.1 (List.mem_filter.1 hmem).2 hnew
  refine (List.subperm_of_subset hsub fun k hk => ?_).length_le
  rcases List.mem_cons.1 hk with rfl | hk
  · exact List.mem_filter.2 ⟨hm, OrdSet.not_contains_iff.2 hold⟩
  · obtain ⟨hmethod, hnot⟩ := List.mem_filter.1 hk
    exact List.mem_filter.2 ⟨hmethod, OrdSet.not_contains_iff.2 fun hseen =>
      OrdSet.not_contains_iff.1 hnot (h k hseen)⟩

def found (g : CallGraph) (seen : OrdSet MethodId) (frontier : List MethodId) : OrdSet MethodId :=
  OrdSet.ofList
    ((frontier.flatMap fun m => (g.callees m).map Prod.fst).filter fun m => !seen.contains m)

theorem mem_found {seen : OrdSet MethodId} {frontier : List MethodId} {b : MethodId} :
    b ∈ g.found seen frontier ↔ (∃ a ∈ frontier, g.Calls a b) ∧ ¬ b ∈ seen := by
  rw [found, OrdSet.mem_ofList, List.mem_filter, List.mem_flatMap, OrdSet.not_contains_iff]
  simp only [mem_map_callees]

/-- During a search the frontier has been seen, and so have the callees of all else that was seen. -/
structure Searching (g : CallGraph) (seen : OrdSet MethodId) (frontier : List MethodId) : Prop where
  ahead : ∀ m ∈ frontier, m ∈ seen
  behind : ∀ a ∈ seen, a ∉ frontier → ∀ b, g.Calls a b → b ∈ seen

namespace Searching

variable {seen : OrdSet MethodId} {frontier : List MethodId}

theorem next (h : g.Searching seen frontier) :
    g.Searching (seen ∪ g.found seen frontier) (g.found seen frontier).toList where
  ahead m hm := OrdSet.mem_union.2 (.inr (OrdSet.mem_toList.1 hm))
  behind a ha hnew b hab := by
    have hold : a ∈ seen := (OrdSet.mem_union.1 ha).resolve_right fun hfound =>
      hnew (OrdSet.mem_toList.2 hfound)
    by_cases hb : b ∈ seen
    · exact OrdSet.mem_union.2 (.inl hb)
    · by_cases hfront : a ∈ frontier
      · exact OrdSet.mem_union.2 (.inr (mem_found.2 ⟨⟨a, hfront, hab⟩, hb⟩))
      · exact absurd (h.behind a hold hfront b hab) hb

/-- A search that finds nothing more has seen all callees. -/
theorem closed (h : g.Searching seen frontier) (hnone : ∀ m, ¬ m ∈ g.found seen frontier)
    {a b : MethodId} (ha : a ∈ seen) (hab : g.Calls a b) : b ∈ seen := by
  by_cases hfront : a ∈ frontier
  · by_contra hb
    exact hnone b (mem_found.2 ⟨⟨a, hfront, hab⟩, hb⟩)
  · exact h.behind a ha hfront b hab

end Searching

/-- What a search finds: all that was seen, only what calls lead to, and with a method its callees.
Every round sees a new method, so there are enough rounds for the methods that are left. -/
theorem reachFrom_spec (hg : g.Closed) (rounds : Nat) (seen : OrdSet MethodId)
    (frontier : List MethodId) (h : g.Searching seen frontier)
    (hrounds : (g.unseen seen).length ≤ rounds) :
    (∀ a ∈ seen, a ∈ g.reachFrom rounds seen frontier) ∧
      (∀ b ∈ g.reachFrom rounds seen frontier, ∃ a ∈ seen, g.Reaches a b) ∧
      ∀ a ∈ g.reachFrom rounds seen frontier, ∀ b, g.Calls a b →
        b ∈ g.reachFrom rounds seen frontier := by
  induction rounds generalizing seen frontier with
  | zero =>
    refine ⟨fun _ h => h, fun b hb => ⟨b, hb, .refl⟩, fun a _ b hab => ?_⟩
    -- no round is left, so all methods have been seen
    have hnil : g.unseen seen = [] := List.eq_nil_of_length_eq_zero (Nat.le_zero.1 hrounds)
    have hb := List.filter_eq_nil_iff.1 hnil b (hg a b hab)
    by_contra hnot
    exact hb (OrdSet.not_contains_iff.2 hnot)
  | succ rounds ih =>
    have hround : g.reachFrom (rounds + 1) seen frontier =
        if (g.found seen frontier).isEmpty then seen
        else g.reachFrom rounds (seen ∪ g.found seen frontier) (g.found seen frontier).toList := rfl
    rw [hround]
    split
    · next hempty =>
      have hnone := OrdSet.isEmpty_iff.1 hempty
      exact ⟨fun _ h => h, fun b hb => ⟨b, hb, .refl⟩, fun a ha b hab => h.closed hnone ha hab⟩
    · next hnonempty =>
      obtain ⟨m, hm⟩ : ∃ m, m ∈ g.found seen frontier := by
        by_contra hnone
        exact hnonempty (OrdSet.isEmpty_iff.2 fun a ha => hnone ⟨a, ha⟩)
      obtain ⟨⟨a, -, ham⟩, hseen⟩ := mem_found.1 hm
      have hlt := unseen_lt (fun k hk => OrdSet.mem_union.2 (.inl hk)) (hg a m ham)
        (OrdSet.mem_union.2 (.inr hm)) hseen
      obtain ⟨hkeep, hsound, hclosed⟩ := ih _ _ h.next (by omega)
      refine ⟨fun k hk => hkeep k (OrdSet.mem_union.2 (.inl hk)), fun b hb => ?_, hclosed⟩
      obtain ⟨a, ha, hab⟩ := hsound b hb
      rcases OrdSet.mem_union.1 ha with ha | ha
      · exact ⟨a, ha, hab⟩
      · obtain ⟨⟨c, hc, hca⟩, -⟩ := mem_found.1 ha
        exact ⟨c, h.ahead c hc, .head hca hab⟩

theorem mem_reach (hg : g.Closed) {a b : MethodId} : b ∈ g.reach a ↔ g.Reaches a b := by
  have hsingle (k : MethodId) : k ∈ OrdSet.ofList [a] ↔ k = a := by
    rw [OrdSet.mem_ofList, List.mem_singleton]
  obtain ⟨hkeep, hsound, hclosed⟩ := reachFrom_spec hg g.calls.size (OrdSet.ofList [a]) [a]
    ⟨fun m hm => OrdSet.mem_ofList.2 hm,
      fun k hk hnot => absurd (List.mem_singleton.2 ((hsingle k).1 hk)) hnot⟩
    (Nat.le_trans (List.length_filter_le _ _) (Nat.le_of_eq (List.length_map _)))
  constructor
  · intro hb
    obtain ⟨k, hk, hkb⟩ := hsound b hb
    rwa [(hsingle k).1 hk] at hkb
  · intro hab
    induction hab with
    | refl => exact hkeep a ((hsingle a).2 rfl)
    | tail _ hbc ih => exact hclosed _ ih _ hbc

theorem Closed.mem_of_reaches (hg : g.Closed) {a b : MethodId} (ha : a ∈ g.methods)
    (h : g.Reaches a b) : b ∈ g.methods := by
  cases h with
  | refl => exact ha
  | tail _ hcb => exact hg _ _ hcb

/-! ### Components -/

theorem getD_reaches {m : MethodId} (hm : m ∈ g.methods) : g.reaches.getD m ∅ = g.reach m := by
  have hkeys : ((g.methods.map fun m => (m, g.reach m)).map Prod.fst).Nodup := by
    rw [List.map_map]
    simpa [Function.comp_def, methods] using g.calls.nodup_keys
  have : g.reaches.get? m = some (g.reach m) :=
    (OrdMap.get?_ofList_eq_some_iff hkeys).2 (List.mem_map.2 ⟨m, hm, rfl⟩)
  rw [OrdMap.getD, this]
  rfl

theorem mem_componentOf (hg : g.Closed) {m k : MethodId} (hm : m ∈ g.methods) :
    k ∈ componentOf g.reaches m ↔ g.Reaches m k ∧ g.Reaches k m := by
  rw [componentOf, getD_reaches hm, List.mem_filter, OrdSet.mem_toList, mem_reach hg]
  refine and_congr_right fun hmk => ?_
  rw [getD_reaches (hg.mem_of_reaches hm hmk)]
  exact mem_reach hg

theorem reach_eq (hg : g.Closed) {m k : MethodId} (hm : m ∈ g.methods)
    (hk : k ∈ componentOf g.reaches m) : g.reach k = g.reach m := by
  obtain ⟨hmk, hkm⟩ := (mem_componentOf hg hm).1 hk
  refine OrdSet.ext fun b => ?_
  rw [mem_reach hg, mem_reach hg]
  exact ⟨hmk.trans, hkm.trans⟩

theorem componentOf_eq (hg : g.Closed) {m k : MethodId} (hm : m ∈ g.methods)
    (hk : k ∈ componentOf g.reaches m) :
    componentOf g.reaches k = componentOf g.reaches m := by
  obtain ⟨hmk, hkm⟩ := (mem_componentOf hg hm).1 hk
  have hmethod := hg.mem_of_reaches hm hmk
  rw [componentOf, componentOf, getD_reaches hm, getD_reaches hmethod, reach_eq hg hm hk]
  refine List.filter_congr fun b hb => ?_
  have hmb := (mem_reach hg).1 (OrdSet.mem_toList.1 hb)
  rw [getD_reaches (hg.mem_of_reaches hm hmb), Bool.eq_iff_iff]
  show k ∈ g.reach b ↔ m ∈ g.reach b
  rw [mem_reach hg, mem_reach hg]
  exact ⟨fun h => h.trans hkm, fun h => h.trans hmk⟩

def keyedComponents (g : CallGraph) : OrdSet (Nat × Component) :=
  OrdSet.ofList (g.methods.map fun m => ((g.reaches.getD m ∅).size, componentOf g.reaches m))

theorem components_eq (g : CallGraph) : g.components = g.keyedComponents.toList.map Prod.snd := rfl

theorem mem_keyedComponents {e : Nat × Component} :
    e ∈ g.keyedComponents ↔
      ∃ m ∈ g.methods, ((g.reach m).size, componentOf g.reaches m) = e := by
  rw [keyedComponents, OrdSet.mem_ofList, List.mem_map]
  refine exists_congr fun m => and_congr_right fun hm => ?_
  rw [getD_reaches hm]

theorem mem_components {c : Component} :
    c ∈ g.components ↔ ∃ m ∈ g.methods, componentOf g.reaches m = c := by
  rw [components_eq, List.mem_map]
  constructor
  · rintro ⟨e, he, rfl⟩
    obtain ⟨m, hm, rfl⟩ := mem_keyedComponents.1 (OrdSet.mem_toList.1 he)
    exact ⟨m, hm, rfl⟩
  · rintro ⟨m, hm, rfl⟩
    exact ⟨_, OrdSet.mem_toList.2 (mem_keyedComponents.2 ⟨m, hm, rfl⟩), rfl⟩

theorem mem_componentOf_self (hg : g.Closed) {m : MethodId} (hm : m ∈ g.methods) :
    m ∈ componentOf g.reaches m :=
  (mem_componentOf hg hm).2 ⟨.refl, .refl⟩

/-- Two components are the same or have no method in common. -/
theorem components_disjoint (hg : g.Closed) {c c' : Component} (hc : c ∈ g.components)
    (hc' : c' ∈ g.components) (hne : c ≠ c') : List.Disjoint c c' := by
  obtain ⟨m, hm, rfl⟩ := mem_components.1 hc
  obtain ⟨m', hm', rfl⟩ := mem_components.1 hc'
  intro k hk hk'
  exact hne ((componentOf_eq hg hm hk).symm.trans (componentOf_eq hg hm' hk'))

theorem nodup_components (hg : g.Closed) : g.components.Nodup := by
  rw [components_eq]
  refine List.Nodup.map_on (fun e he e' he' h => ?_) (OrdSet.nodup_toList _)
  obtain ⟨m, hm, rfl⟩ := mem_keyedComponents.1 (OrdSet.mem_toList.1 he)
  obtain ⟨m', hm', rfl⟩ := mem_keyedComponents.1 (OrdSet.mem_toList.1 he')
  replace h : componentOf g.reaches m = componentOf g.reaches m' := h
  have hmem : m ∈ componentOf g.reaches m' := h ▸ mem_componentOf_self hg hm
  exact Prod.ext (congrArg OrdSet.size (reach_eq hg hm' hmem)) h

/-! ### Callees first -/

theorem calleesFirst_cons {earlier : List MethodId} {c : Component} {rest : List Component} :
    g.calleesFirst earlier (c :: rest) = true ↔
      (∀ a ∈ c, ∀ b, g.Calls a b → b ∈ earlier ∨ b ∈ c) ∧
        g.calleesFirst (earlier ++ c) rest = true := by
  rw [calleesFirst, Bool.and_eq_true, List.all_eq_true]
  refine and_congr_left fun _ => forall_congr' fun a => forall_congr' fun _ => ?_
  rw [List.all_eq_true]
  constructor
  · rintro h b ⟨n, hn⟩
    simpa using h (b, n) hn
  · rintro h ⟨b, n⟩ hn
    simpa using h b ⟨n, hn⟩

/-- If every call out of a component goes to a component with a smaller key, then the components in
the order of their keys come callees first. -/
theorem calleesFirst_of_keys {r : Component → Component → Prop} (earlier cs : List Component)
    (hsorted : (earlier ++ cs).Pairwise fun c c' => ¬ r c' c)
    (hcalls : ∀ c ∈ cs, ∀ a ∈ c, ∀ b, g.Calls a b →
      b ∈ c ∨ ∃ c' ∈ earlier ++ cs, r c' c ∧ b ∈ c') :
    g.calleesFirst earlier.flatten cs = true := by
  induction cs generalizing earlier with
  | nil => rfl
  | cons c rest ih =>
    have happend : earlier ++ c :: rest = (earlier ++ [c]) ++ rest := by simp
    refine calleesFirst_cons.2 ⟨fun a ha b hab => ?_, ?_⟩
    · rcases hcalls c List.mem_cons_self a ha b hab with hb | ⟨c', hc', hkey, hb⟩
      · exact .inr hb
      · rcases List.mem_append.1 hc' with hc' | hc'
        · exact .inl (List.mem_flatten.2 ⟨c', hc', hb⟩)
        · rcases List.mem_cons.1 hc' with rfl | hc'
          · exact .inr hb
          · have := (List.pairwise_cons.1 (List.pairwise_append.1 hsorted).2.1).1 c' hc'
            exact absurd hkey this
    · have hflatten : earlier.flatten ++ c = (earlier ++ [c]).flatten := by simp
      rw [hflatten]
      refine ih (earlier ++ [c]) (happend ▸ hsorted) fun c' hc' a ha b hab => ?_
      rw [← happend]
      exact hcalls c' (List.mem_cons_of_mem c hc') a ha b hab

theorem size_reach_lt (hg : g.Closed) {a b : MethodId} (hab : g.Reaches a b)
    (hba : ¬ g.Reaches b a) : (g.reach b).size < (g.reach a).size :=
  OrdSet.size_lt_size (fun _ hk => (mem_reach hg).2 (hab.trans ((mem_reach hg).1 hk)))
    ((mem_reach hg).2 .refl) fun h => hba ((mem_reach hg).1 h)

/-- A caller outside the component of its callee reaches more methods, which puts its component
later. -/
theorem calleesFirst_components (hg : g.Closed) : g.calleesFirst [] g.components = true := by
  let key (c c' : Component) : Prop :=
    ∃ a ∈ c, ∃ b ∈ c', (g.reach a).size < (g.reach b).size
  refine calleesFirst_of_keys (r := key) [] g.components ?_ ?_
  · rw [List.nil_append, components_eq, List.pairwise_map]
    have hsorted : g.keyedComponents.toList.Pairwise fun e e' => e.1 ≤ e'.1 :=
      (OrdSet.pairwise_toList _).imp fun h => OrdSet.fst_le_of_compare_lt h
    refine hsorted.imp_of_mem fun {e e'} he he' hle => ?_
    obtain ⟨m, hm, rfl⟩ := mem_keyedComponents.1 (OrdSet.mem_toList.1 he)
    obtain ⟨m', hm', rfl⟩ := mem_keyedComponents.1 (OrdSet.mem_toList.1 he')
    rintro ⟨a, ha, b, hb, hlt⟩
    rw [reach_eq hg hm' ha, reach_eq hg hm hb] at hlt
    exact absurd hlt (Nat.not_lt.2 hle)
  · intro c hc a ha b hab
    obtain ⟨m, hm, rfl⟩ := mem_components.1 hc
    obtain ⟨hma, ham⟩ := (mem_componentOf hg hm).1 ha
    have hb : b ∈ g.methods := hg a b hab
    by_cases hbm : g.Reaches b m
    · exact .inl ((mem_componentOf hg hm).2 ⟨hma.tail hab, hbm⟩)
    · have hself := mem_componentOf_self hg hb
      refine .inr ⟨_, mem_components.2 ⟨b, hb, rfl⟩, ⟨b, hself, a, ha, ?_⟩, hself⟩
      exact size_reach_lt hg (.single hab) fun hba => hbm (hba.trans ham)

/-! ### Levels -/

theorem lt_levelAbove {levelOf : OrdMap MethodId Nat} {c : Component} {a b : MethodId} {n : Nat}
    (ha : a ∈ c) (hab : g.Calls a b) (hn : levelOf.get? b = some n) :
    n < g.levelAbove levelOf c := by
  obtain ⟨position, hcall⟩ := hab
  refine le_foldl_max 0 (List.mem_map.2 ⟨n, List.mem_flatMap.2 ⟨a, ha, ?_⟩, rfl⟩)
  exact List.mem_filterMap.2 ⟨(b, position), hcall, hn⟩

theorem get?_foldl_insert (c : List MethodId) (level : Nat) (levelOf : OrdMap MethodId Nat)
    (b : MethodId) :
    (c.foldl (fun ls m => ls.insert m level) levelOf).get? b =
      if b ∈ c then some level else levelOf.get? b := by
  induction c generalizing levelOf with
  | nil => rfl
  | cons m c ih =>
    rw [List.foldl_cons, ih, OrdMap.get?_insert]
    by_cases hb : b ∈ c <;> by_cases hm : b = m <;> simp [hb, hm]

theorem map_leveled (levelOf : OrdMap MethodId Nat) (cs : List Component) :
    (g.leveled levelOf cs).map Prod.fst = cs := by
  induction cs generalizing levelOf with
  | nil => rfl
  | cons c cs ih => exact congrArg (c :: ·) (ih _)

/-- A call that leaves a component goes to a lower level. -/
theorem level_lt_of_calls {earlier : List MethodId} {cs : List Component}
    {levelOf : OrdMap MethodId Nat} (hfirst : g.calleesFirst earlier cs = true)
    (hearlier : ∀ b ∈ earlier, ∃ n, levelOf.get? b = some n) {c : Component} {level : Nat}
    (hc : (c, level) ∈ g.leveled levelOf cs) {a b : MethodId} (ha : a ∈ c) (hab : g.Calls a b) :
    b ∈ c ∨ (∃ n, levelOf.get? b = some n ∧ n < level) ∨
      ∃ c' n, (c', n) ∈ g.leveled levelOf cs ∧ b ∈ c' ∧ n < level := by
  induction cs generalizing earlier levelOf with
  | nil => cases hc
  | cons c₁ cs ih =>
    obtain ⟨hcalls, hrest⟩ := calleesFirst_cons.1 hfirst
    rcases List.mem_cons.1 hc with heq | hc
    · cases heq
      rcases hcalls a ha b hab with hb | hb
      · obtain ⟨n, hn⟩ := hearlier b hb
        exact .inr (.inl ⟨n, hn, lt_levelAbove ha hab hn⟩)
      · exact .inl hb
    · have hkeys : ∀ b ∈ earlier ++ c₁, ∃ n, (c₁.foldl
          (fun ls m => ls.insert m (g.levelAbove levelOf c₁)) levelOf).get? b = some n := by
        intro b hb
        rw [get?_foldl_insert]
        split
        · exact ⟨_, rfl⟩
        · next hnot => exact hearlier b ((List.mem_append.1 hb).resolve_right hnot)
      rcases ih hrest hkeys hc with hb | ⟨n, hn, hlt⟩ | ⟨c', n, hc', hb, hlt⟩
      · exact .inl hb
      · rw [get?_foldl_insert] at hn
        split at hn
        · next hb =>
          cases hn
          exact .inr (.inr ⟨c₁, _, List.mem_cons_self, hb, hlt⟩)
        · exact .inr (.inl ⟨n, hn, hlt⟩)
      · exact .inr (.inr ⟨c', n, List.mem_cons_of_mem _ hc', hb, hlt⟩)

def byLevel {α : Type} (items : List (α × Nat)) (height : Nat) : List (α × Nat) :=
  (List.range height).flatMap fun level => items.filter fun i => i.2 == level

theorem pairwise_byLevel {α : Type} (items : List (α × Nat)) (height : Nat) :
    (byLevel items height).Pairwise fun i j => i.2 ≤ j.2 := by
  have hlevel {i : α × Nat} {level : Nat} (h : i ∈ items.filter fun i => i.2 == level) :
      i.2 = level := by simpa using (List.mem_filter.1 h).2
  refine List.pairwise_flatMap.2 ⟨fun level _ => ?_, ?_⟩
  · refine List.pairwise_of_forall_mem_list fun i hi j hj => ?_
    exact Nat.le_of_eq ((hlevel hi).trans (hlevel hj).symm)
  · refine List.pairwise_lt_range.imp fun {l l'} hlt i hi j hj => ?_
    rw [hlevel hi, hlevel hj]
    exact Nat.le_of_lt hlt

theorem nodup_byLevel {α : Type} {items : List (α × Nat)} (h : items.Nodup) (height : Nat) :
    (byLevel items height).Nodup := by
  refine List.pairwise_flatMap.2 ⟨fun level _ => h.filter _, ?_⟩
  refine List.pairwise_lt_range.imp fun {l l'} hlt i hi j hj heq => ?_
  have hl : i.2 = l := by simpa using (List.mem_filter.1 hi).2
  have hl' : j.2 = l' := by simpa using (List.mem_filter.1 hj).2
  rw [heq, hl'] at hl
  exact absurd hl (Nat.ne_of_gt hlt)

def scheduled (g : CallGraph) (cs : List Component) : List (Component × Nat) :=
  let leveled := g.leveled ∅ cs
  byLevel leveled ((leveled.map fun c => c.2 + 1).foldl max 0)

theorem flatten_levels (cs : List Component) :
    (g.levels cs).flatten = (g.scheduled cs).map Prod.fst := by
  rw [levels, scheduled, byLevel, List.map_flatMap]
  rfl

theorem mem_scheduled {cs : List Component} {c : Component × Nat} :
    c ∈ g.scheduled cs ↔ c ∈ g.leveled ∅ cs := by
  rw [scheduled, byLevel, List.mem_flatMap]
  constructor
  · rintro ⟨level, -, h⟩
    exact (List.mem_filter.1 h).1
  · intro h
    refine ⟨c.2, List.mem_range.2 (le_foldl_max 0 (List.mem_map.2 ⟨c, h, rfl⟩)), ?_⟩
    exact List.mem_filter.2 ⟨h, beq_self_eq_true _⟩

theorem mem_flatten_levels {cs : List Component} {c : Component} :
    c ∈ (g.levels cs).flatten ↔ c ∈ cs := by
  have hcs : c ∈ cs ↔ c ∈ (g.leveled ∅ cs).map Prod.fst := by rw [map_leveled]
  rw [flatten_levels, hcs, List.mem_map, List.mem_map]
  simp only [mem_scheduled]

theorem nodup_flatten_levels {cs : List Component} (h : cs.Nodup) :
    (g.levels cs).flatten.Nodup := by
  rw [← map_leveled (g := g) ∅ cs] at h
  rw [flatten_levels]
  refine List.Nodup.map_on (fun c hc c' hc' heq => ?_) (nodup_byLevel (List.Nodup.of_map _ h) _)
  exact List.inj_on_of_nodup_map h (mem_scheduled.1 hc) (mem_scheduled.1 hc') heq

/-- Level by level, the components still come callees first. -/
theorem calleesFirst_levels {cs : List Component} (hnodup : cs.Nodup)
    (h : g.calleesFirst [] cs = true) : g.calleesFirst [] (g.levels cs).flatten = true := by
  rw [← map_leveled (g := g) ∅ cs] at hnodup
  let key (c c' : Component) : Prop :=
    ∃ n n', (c, n) ∈ g.leveled ∅ cs ∧ (c', n') ∈ g.leveled ∅ cs ∧ n < n'
  have hlevel {c : Component} {n n' : Nat} (hn : (c, n) ∈ g.leveled ∅ cs)
      (hn' : (c, n') ∈ g.leveled ∅ cs) : n = n' :=
    congrArg Prod.snd (List.inj_on_of_nodup_map hnodup hn hn' rfl)
  rw [flatten_levels]
  refine calleesFirst_of_keys (r := key) [] _ ?_ ?_
  · rw [List.nil_append, List.pairwise_map]
    refine (pairwise_byLevel _ _).imp_of_mem fun {c c'} hc hc' hle => ?_
    rintro ⟨n', n, hn', hn, hlt⟩
    rw [hlevel hn (mem_scheduled.1 hc), hlevel hn' (mem_scheduled.1 hc')] at hlt
    exact absurd hlt (Nat.not_lt.2 hle)
  · intro c hc a ha b hab
    obtain ⟨⟨c, n⟩, hn, rfl⟩ := List.mem_map.1 hc
    have hn := mem_scheduled.1 hn
    rcases level_lt_of_calls h (fun b hb => by cases hb) hn ha hab with
      hb | ⟨k, hk, -⟩ | ⟨c', n', hn', hb, hlt⟩
    · exact .inl hb
    · cases hk
    · exact .inr ⟨c', List.mem_map.2 ⟨(c', n'), mem_scheduled.2 hn', rfl⟩, ⟨n', n, hn', hn, hlt⟩, hb⟩

/-! ### One level -/

section Level

variable {cs level : List Component} (hlevel : level ∈ g.levels cs)

include hlevel

theorem exists_of_mem_levels :
    ∃ n, level = ((g.leveled ∅ cs).filter fun c => c.2 == n).map Prod.fst := by
  obtain ⟨n, -, rfl⟩ := List.mem_map.1 hlevel
  exact ⟨n, rfl⟩

theorem nodup_level (hnodup : cs.Nodup) : level.Nodup := by
  obtain ⟨n, rfl⟩ := exists_of_mem_levels hlevel
  rw [← map_leveled (g := g) ∅ cs] at hnodup
  exact (List.filter_sublist.map Prod.fst).nodup hnodup

theorem mem_of_mem_level {c : Component} (hc : c ∈ level) : c ∈ cs :=
  mem_flatten_levels.1 (List.mem_flatten.2 ⟨level, hlevel, hc⟩)

/-- No method of a component calls one of another component of the same level. -/
theorem not_calls_of_mem_level (hnodup : cs.Nodup) (hfirst : g.calleesFirst [] cs = true)
    (hdisjoint : ∀ c ∈ cs, ∀ c' ∈ cs, c ≠ c' → List.Disjoint c c') {c c' : Component}
    (hc : c ∈ level) (hc' : c' ∈ level) (hne : c ≠ c') {a b : MethodId} (ha : a ∈ c)
    (hb : b ∈ c') : ¬ g.Calls a b := by
  intro hab
  have hapart := hdisjoint c (mem_of_mem_level hlevel hc) c' (mem_of_mem_level hlevel hc') hne
  obtain ⟨n, rfl⟩ := exists_of_mem_levels hlevel
  have hkey {c : Component} (hc : c ∈ ((g.leveled ∅ cs).filter fun c => c.2 == n).map Prod.fst) :
      (c, n) ∈ g.leveled ∅ cs := by
    simpa using hc
  rcases level_lt_of_calls hfirst (fun b hb => by cases hb) (hkey hc) ha hab with
    hb' | ⟨k, hk, -⟩ | ⟨c'', n', hc'', hb', hlt⟩
  · exact hapart hb' hb
  · cases hk
  · -- the callee is in one component only, whose level is the same
    have hmem : c'' ∈ cs := map_leveled (g := g) ∅ cs ▸ List.mem_map.2 ⟨(c'', n'), hc'', rfl⟩
    have heq : c'' = c' := by
      by_contra hne'
      exact hdisjoint c'' hmem c' (mem_of_mem_level hlevel hc') hne' hb' hb
    rw [← map_leveled (g := g) ∅ cs] at hnodup
    have hsame : n' = n :=
      congrArg Prod.snd (List.inj_on_of_nodup_map hnodup hc'' (hkey hc') heq)
    omega

end Level

/-! ### The graph of a program -/

theorem get?_foldl_addCall {p : Program} (calls : List (Nat × String)) (m : OrdMap MethodId Nat)
    (k : MethodId) :
    (∃ n, (calls.foldl (addCall p) m).get? k = some n) ↔
      (∃ n, m.get? k = some n) ∨ ∃ call ∈ calls, (p.lookup call.2).map Method.id = some k := by
  induction calls generalizing m with
  | nil => simp
  | cons call calls ih =>
    have hstep : (∃ n, (addCall p m call).get? k = some n) ↔
        (∃ n, m.get? k = some n) ∨ (p.lookup call.2).map Method.id = some k := by
      rw [addCall]
      cases p.lookup call.2 with
      | none => simp
      | some callee =>
        by_cases hk : k = callee.id
        · subst hk
          simp [OrdMap.get?_alter]
        · simp [OrdMap.get?_alter, hk, Ne.symm hk]
    rw [List.foldl_cons, ih, hstep, or_assoc]
    simp

section Build

variable {p : Program} (hp : p.WellFormed)

include hp

theorem callees_build {m : Method} (hm : m ∈ p.methods) :
    (build p).callees m.id = (m.calls.foldl (addCall p) ∅).entries := by
  have hkeys : ((p.methods.map fun m => (m.id, m.calls.foldl (addCall p) ∅)).map Prod.fst).Nodup := by
    rw [List.map_map]
    exact hp.nodup_ids
  have : (build p).calls.get? m.id = some (m.calls.foldl (addCall p) ∅) :=
    (OrdMap.get?_ofList_eq_some_iff hkeys).2 (List.mem_map.2 ⟨m, hm, rfl⟩)
  rw [callees, OrdMap.getD, this]
  rfl

theorem mem_methods_build {k : MethodId} : k ∈ (build p).methods ↔ ∃ m ∈ p.methods, m.id = k := by
  have hkeys : ((p.methods.map fun m => (m.id, m.calls.foldl (addCall p) ∅)).map Prod.fst).Nodup := by
    rw [List.map_map]
    exact hp.nodup_ids
  rw [methods, OrdMap.mem_keys]
  show (∃ v, (OrdMap.ofList _ _).get? k = some v) ↔ _
  simp only [OrdMap.get?_ofList_eq_some_iff hkeys, List.mem_map, Prod.mk.injEq]
  constructor
  · rintro ⟨_, m, hm, hk, -⟩
    exact ⟨m, hm, hk⟩
  · rintro ⟨m, hm, hk⟩
    exact ⟨_, m, hm, hk, rfl⟩

/-- A method calls what the names in its calls stand for. -/
theorem calls_build_iff {m : Method} (hm : m ∈ p.methods) {k : MethodId} :
    (build p).Calls m.id k ↔ ∃ call ∈ m.calls, (p.lookup call.2).map Method.id = some k := by
  have hget := get?_foldl_addCall (p := p) m.calls ∅ k
  simp only [OrdMap.get?_empty, reduceCtorEq, exists_false, false_or] at hget
  rw [← hget, Calls, callees_build hp hm]
  simp only [OrdMap.get?_eq_some_iff]

theorem calls_of_lookup {m callee : Method} (hm : m ∈ p.methods) {call : Nat × String}
    (hcall : call ∈ m.calls) (hcallee : p.lookup call.2 = some callee) :
    (build p).Calls m.id callee.id :=
  (calls_build_iff hp hm).2 ⟨call, hcall, by rw [hcallee]; rfl⟩

/-- Only methods of the program call. -/
theorem exists_caller {k : MethodId} {call : MethodId × Nat} (h : call ∈ (build p).callees k) :
    ∃ m ∈ p.methods, m.id = k := by
  refine (mem_methods_build hp).1 (OrdMap.mem_keys.2 ?_)
  cases hget : (build p).calls.get? k with
  | some calls => exact ⟨calls, rfl⟩
  | none => simp [callees, OrdMap.getD, hget, EmptyCollection.emptyCollection, OrdMap.empty] at h

theorem closed_build : (build p).Closed := by
  rintro a b ⟨n, hn⟩
  obtain ⟨m, hm, rfl⟩ := exists_caller hp hn
  obtain ⟨call, -, hcall⟩ := (calls_build_iff hp hm).1 ⟨n, hn⟩
  obtain ⟨callee, hcallee, rfl⟩ := Option.map_eq_some_iff.1 hcall
  exact (mem_methods_build hp).2 ⟨callee, (Program.mem_of_lookup hcallee).1, rfl⟩

end Build

/-- A component that is not recursive is one method that does not call itself. -/
theorem eq_singleton_of_not_isRecursive {c : Component} {m : MethodId} (hm : m ∈ c)
    (h : g.isRecursive c = false) : c = [m] ∧ ¬ g.Calls m m := by
  rw [isRecursive, Bool.or_eq_false_iff, decide_eq_false_iff_not, Nat.not_lt] at h
  obtain ⟨hlength, hcalls⟩ := h
  obtain rfl : c = [m] := by
    cases c with
    | nil => cases hm
    | cons k c =>
      obtain rfl := List.eq_nil_of_length_eq_zero (Nat.le_zero.1 (Nat.le_of_succ_le_succ hlength))
      rw [List.mem_singleton.1 hm]
  refine ⟨rfl, fun ⟨n, hn⟩ => ?_⟩
  rw [List.any_eq_false] at hcalls
  exact hcalls m hm (List.any_eq_true.2 ⟨(m, n), hn, beq_self_eq_true m⟩)

/-- The component of a method is recursive if some call of the method leads back to it. -/
theorem isRecursive_componentOf_iff (hg : g.Closed) {m : MethodId} (hm : m ∈ g.methods) :
    g.isRecursive (componentOf g.reaches m) = true ↔ ∃ k, g.Calls m k ∧ g.Reaches k m := by
  constructor
  · intro h
    -- a method of the component that is not `m`, or that calls itself, closes the way back
    obtain ⟨k, hk, hback⟩ : ∃ k ∈ componentOf g.reaches m, k ≠ m ∨ g.Calls k k := by
      rw [isRecursive, Bool.or_eq_true, decide_eq_true_iff] at h
      rcases h with hlength | hcalls
      · by_contra hnone
        have hall : ∀ k ∈ componentOf g.reaches m, k ∈ [m] := fun k hk => by
          by_contra hne
          exact hnone ⟨k, hk, .inl (by simpa using hne)⟩
        have hnodup : (componentOf g.reaches m).Nodup := (OrdSet.nodup_toList _).filter _
        exact absurd (List.subperm_of_subset hnodup hall).length_le (Nat.not_le.2 hlength)
      · obtain ⟨k, hk, hself⟩ := List.any_eq_true.1 hcalls
        obtain ⟨⟨callee, n⟩, hcall, heq⟩ := List.any_eq_true.1 hself
        exact ⟨k, hk, .inr ⟨n, (beq_iff_eq.1 heq) ▸ hcall⟩⟩
    obtain ⟨hmk, hkm⟩ := (mem_componentOf hg hm).1 hk
    rcases Relation.ReflTransGen.cases_head hmk with rfl | ⟨next, hnext, hreaches⟩
    · rcases hback with hne | hself
      · exact absurd rfl hne
      · exact ⟨m, hself, .refl⟩
    · exact ⟨next, hnext, hreaches.trans hkm⟩
  · rintro ⟨k, hmk, hkm⟩
    by_contra h
    obtain ⟨hsingle, hself⟩ := eq_singleton_of_not_isRecursive (mem_componentOf_self hg hm)
      (Bool.not_eq_true _ ▸ h)
    have hk : k ∈ componentOf g.reaches m := (mem_componentOf hg hm).2 ⟨.single hmk, hkm⟩
    rw [hsingle, List.mem_singleton] at hk
    exact hself (hk ▸ hmk)

end CallGraph

end TaintFlow
