import Mathlib.Data.List.Pairwise
import Mathlib.Order.Bounds.Defs
import TaintFlow.Proofs.CallOrder

/-!
The levels of components. Of the list of components it is only asked that its members are the
classes of methods that reach each other, and that no component comes before one that it calls
(`CallGraph.Condensed`); the components as they are computed are such a list. A call to another
component then goes to a lower level, and a component above the lowest level calls one of the next
level below, so that a level is the length of the longest chain of calls from component to
component: `CallGraph.levels_build`.
-/

namespace TaintFlow

namespace CallGraph

variable {g : CallGraph} {cs path : List Component} {c c' : Component} {n n' : Nat}

def CallsInto (g : CallGraph) (c c' : Component) : Prop :=
  c ≠ c' ∧ ∃ a ∈ c, ∃ b ∈ c', g.Calls a b

/-- A list of the strongly connected components, callees before callers. -/
structure Condensed (g : CallGraph) (cs : List Component) : Prop where
  /-- A component is what one method reaches and is reached from. -/
  classes : ∀ c ∈ cs, ∃ m ∈ g.methods, ∀ k, k ∈ c ↔ g.Reaches m k ∧ g.Reaches k m
  covers : ∀ m ∈ g.methods, ∃ c ∈ cs, m ∈ c
  apart : cs.Pairwise List.Disjoint
  /-- No component calls a later one. -/
  ordered : cs.Pairwise fun c c' => ¬ g.CallsInto c c'

structure Chain (g : CallGraph) (cs : List Component) (c : Component) (path : List Component) :
    Prop where
  calls : (c :: path).IsChain g.CallsInto
  subset : path ⊆ cs

def AtLevel (g : CallGraph) (cs : List Component) (c : Component) (n : Nat) : Prop :=
  ∃ level, (g.levels cs)[n]? = some level ∧ c ∈ level

/-! ### Lists of components -/

theorem pairwise_not_callsInto {earlier : List MethodId}
    (hfirst : g.calleesFirst earlier cs = true) (hapart : cs.Pairwise List.Disjoint)
    (hearlier : ∀ c ∈ cs, List.Disjoint earlier c) :
    cs.Pairwise fun c c' => ¬ g.CallsInto c c' := by
  induction cs generalizing earlier with
  | nil => exact .nil
  | cons c cs ih =>
    obtain ⟨hcalls, hrest⟩ := calleesFirst_cons.1 hfirst
    obtain ⟨hc, hcs⟩ := List.pairwise_cons.1 hapart
    -- a callee is in `c` or before it, and a later component has no method of either
    refine List.pairwise_cons.2 ⟨?_, ih hrest hcs fun c' hc' => ?_⟩
    · rintro c' hc' ⟨-, a, ha, b, hb, hab⟩
      rcases hcalls a ha b hab with hb' | hb'
      · exact hearlier c' (List.mem_cons_of_mem c hc') hb' hb
      · exact hc c' hc' hb' hb
    · exact List.disjoint_append_left.2 ⟨hearlier c' (List.mem_cons_of_mem c hc'), hc c' hc'⟩

/-- The components of a graph satisfy what is asked of them. -/
theorem condensed_components (hg : g.Closed) : g.Condensed g.components := by
  have hapart : g.components.Pairwise List.Disjoint :=
    (nodup_components hg).pairwise_of_forall_ne fun c hc c' hc' => components_disjoint hg hc hc'
  refine
    { classes := fun c hc => ?_
      covers := fun m hm => ?_
      apart := hapart
      ordered := pairwise_not_callsInto (calleesFirst_components hg) hapart fun _ _ => nofun }
  · obtain ⟨m, hm, rfl⟩ := mem_components.1 hc
    exact ⟨m, hm, fun k => mem_componentOf hg hm⟩
  · exact ⟨_, mem_components.2 ⟨m, hm, rfl⟩, mem_componentOf_self hg hm⟩

namespace Condensed

section

variable (hcs : g.Condensed cs)

include hcs

theorem eq_of_mem {k : MethodId} (hc : c ∈ cs) (hc' : c' ∈ cs) (hk : k ∈ c) (hk' : k ∈ c') :
    c = c' := by
  have : Std.Symm (@List.Disjoint MethodId) := ⟨fun _ _ => List.disjoint_symm⟩
  by_contra hne
  exact hcs.apart.forall hc hc' hne hk hk'

theorem nodup : cs.Nodup := by
  refine hcs.apart.imp_of_mem fun {c c'} hc _ hdisjoint heq => ?_
  obtain ⟨m, -, hmem⟩ := hcs.classes c hc
  have hm : m ∈ c := (hmem m).2 ⟨.refl, .refl⟩
  exact hdisjoint hm (heq ▸ hm)

theorem calleesFirst (hg : g.Closed) : g.calleesFirst [] cs = true := by
  refine calleesFirst_of_keys (r := fun c' c => g.CallsInto c c') [] cs hcs.ordered ?_
  intro c hc a ha b hab
  obtain ⟨c', hc', hb⟩ := hcs.covers b (hg a b hab)
  by_cases hsame : c = c'
  · exact .inl (hsame ▸ hb)
  · exact .inr ⟨c', hc', ⟨hsame, a, ha, b, hb, hab⟩, hb⟩

end

end Condensed

/-! ### Levels one by one -/

theorem exists_level (hc : c ∈ cs) : ∃ n, (c, n) ∈ g.leveled ∅ cs := by
  rw [← map_leveled (g := g) ∅ cs] at hc
  obtain ⟨⟨c, n⟩, hn, rfl⟩ := List.mem_map.1 hc
  exact ⟨n, hn⟩

theorem mem_of_mem_leveled (hn : (c, n) ∈ g.leveled ∅ cs) : c ∈ cs := by
  rw [← map_leveled (g := g) ∅ cs]
  exact List.mem_map_of_mem hn

/-- A component above the lowest level calls what is one level below. -/
theorem exists_calls_of_level_succ {levelOf : OrdMap MethodId Nat}
    (hc : (c, n + 1) ∈ g.leveled levelOf cs) :
    ∃ a ∈ c, ∃ b, g.Calls a b ∧
      (levelOf.get? b = some n ∨ ∃ c', (c', n) ∈ g.leveled levelOf cs ∧ b ∈ c') := by
  induction cs generalizing levelOf with
  | nil => cases hc
  | cons c₁ cs ih =>
    rcases List.mem_cons.1 hc with heq | hc
    · obtain ⟨rfl, hlevel⟩ := Prod.mk.inj heq
      rcases foldl_max_mem 0 _ with hzero | hmem
      · exact absurd (hlevel.trans hzero) (Nat.succ_ne_zero n)
      · -- the level is one above that of some callee
        obtain ⟨k, hk, hsucc⟩ := List.mem_map.1 hmem
        obtain ⟨a, ha, hk⟩ := List.mem_flatMap.1 hk
        obtain ⟨⟨b, position⟩, hcall, hb⟩ := List.mem_filterMap.1 hk
        obtain rfl : k = n := Nat.succ.inj (hsucc.trans hlevel.symm)
        exact ⟨a, ha, b, ⟨position, hcall⟩, .inl hb⟩
    · obtain ⟨a, ha, b, hab, hb | ⟨c', hc', hb⟩⟩ := ih hc
      · refine ⟨a, ha, b, hab, ?_⟩
        rw [get?_foldl_insert] at hb
        split at hb
        · next hmem =>
          cases hb
          exact .inr ⟨c₁, List.mem_cons_self, hmem⟩
        · exact .inl hb
      · exact ⟨a, ha, b, hab, .inr ⟨c', List.mem_cons_of_mem _ hc', hb⟩⟩

namespace Condensed

section

variable (hcs : g.Condensed cs)

include hcs

theorem level_unique (hn : (c, n) ∈ g.leveled ∅ cs) (hn' : (c, n') ∈ g.leveled ∅ cs) : n = n' := by
  have hnodup := hcs.nodup
  rw [← map_leveled (g := g) ∅ cs] at hnodup
  exact congrArg Prod.snd (List.inj_on_of_nodup_map hnodup hn hn' rfl)

/-- Calls to another component go to a lower level. -/
theorem level_lt (hg : g.Closed) (hn : (c, n) ∈ g.leveled ∅ cs) (hn' : (c', n') ∈ g.leveled ∅ cs)
    (hcalls : g.CallsInto c c') : n' < n := by
  have hc := mem_of_mem_leveled hn
  have hc' := mem_of_mem_leveled hn'
  obtain ⟨hne, a, ha, b, hb, hab⟩ := hcalls
  rcases level_lt_of_calls (hcs.calleesFirst hg) (fun _ => nofun) hn ha hab with
    hb' | ⟨k, hk, -⟩ | ⟨c'', k, hk, hb'', hlt⟩
  · exact absurd (hcs.eq_of_mem hc hc' hb' hb) hne
  · cases hk
  · obtain rfl := hcs.eq_of_mem (mem_of_mem_leveled hk) hc' hb'' hb
    rwa [hcs.level_unique hn' hk]

/-- Above the lowest level there is a call to the next level below. -/
theorem exists_callsInto (hn : (c, n + 1) ∈ g.leveled ∅ cs) :
    ∃ c', (c', n) ∈ g.leveled ∅ cs ∧ g.CallsInto c c' := by
  obtain ⟨a, ha, b, hab, hb | ⟨c', hc', hb⟩⟩ := exists_calls_of_level_succ hn
  · cases hb
  · refine ⟨c', hc', ?_, a, ha, b, hb, hab⟩
    rintro rfl
    exact absurd (hcs.level_unique hn hc') (Nat.succ_ne_self n)

/-- Below the level of a component no level is empty. -/
theorem exists_at_level (hn : (c, n) ∈ g.leveled ∅ cs) (hle : n' ≤ n) :
    ∃ c', (c', n') ∈ g.leveled ∅ cs := by
  induction n generalizing c with
  | zero =>
    obtain rfl := Nat.le_zero.1 hle
    exact ⟨c, hn⟩
  | succ n ih =>
    rcases Nat.le_or_eq_of_le_succ hle with hle | rfl
    · obtain ⟨c', hc', -⟩ := hcs.exists_callsInto hn
      exact ih hc' hle
    · exact ⟨c, hn⟩

/-! ### Chains -/

theorem exists_chain (hn : (c, n) ∈ g.leveled ∅ cs) :
    ∃ path, g.Chain cs c path ∧ path.length = n := by
  induction n generalizing c with
  | zero => exact ⟨[], ⟨.singleton c, List.nil_subset cs⟩, rfl⟩
  | succ n ih =>
    obtain ⟨c', hc', hcalls⟩ := hcs.exists_callsInto hn
    obtain ⟨path, hpath, hlength⟩ := ih hc'
    refine ⟨c' :: path, ⟨.cons_cons hcalls hpath.calls, ?_⟩, congrArg (· + 1) hlength⟩
    exact List.cons_subset.2 ⟨mem_of_mem_leveled hc', hpath.subset⟩

/-- Levels fall along a chain, at every call. -/
theorem chain_levels (hg : g.Closed) (hn : (c, n) ∈ g.leveled ∅ cs) (hpath : g.Chain cs c path) :
    path.length ≤ n ∧ (c :: path).Nodup ∧ ∀ d ∈ path, ∃ k < n, (d, k) ∈ g.leveled ∅ cs := by
  induction path generalizing c n with
  | nil => exact ⟨Nat.zero_le n, List.nodup_singleton c, nofun⟩
  | cons c' path ih =>
    obtain ⟨hcalls, hrest⟩ := List.isChain_cons_cons.1 hpath.calls
    obtain ⟨hc', hsubset⟩ := List.cons_subset.1 hpath.subset
    obtain ⟨n', hn'⟩ := exists_level (g := g) hc'
    have hlt := hcs.level_lt hg hn hn' hcalls
    obtain ⟨hlength, hnodup, hbelow⟩ := ih hn' ⟨hrest, hsubset⟩
    have hbelow : ∀ d ∈ c' :: path, ∃ k < n, (d, k) ∈ g.leveled ∅ cs :=
      List.forall_mem_cons.2 ⟨⟨n', hlt, hn'⟩, fun d hd =>
        (hbelow d hd).imp fun k hk => ⟨Nat.lt_trans hk.1 hlt, hk.2⟩⟩
    refine ⟨Nat.lt_of_le_of_lt hlength hlt, List.nodup_cons.2 ⟨fun hmem => ?_, hnodup⟩, hbelow⟩
    -- all later components are below the level of `c`, so `c` is none of them
    obtain ⟨k, hk, hkc⟩ := hbelow c hmem
    exact absurd (hcs.level_unique hkc hn) (Nat.ne_of_lt hk)

theorem isGreatest_level (hg : g.Closed) (hn : (c, n) ∈ g.leveled ∅ cs) :
    IsGreatest {k | ∃ path, g.Chain cs c path ∧ path.length = k} n := by
  refine ⟨hcs.exists_chain hn, ?_⟩
  rintro _ ⟨path, hpath, rfl⟩
  exact (hcs.chain_levels hg hn hpath).1

end

end Condensed

/-! ### The list of levels -/

theorem getElem?_levels_eq_some_iff {level : List Component} :
    (g.levels cs)[n]? = some level ↔
      n < ((g.leveled ∅ cs).map fun c => c.2 + 1).foldl max 0 ∧
        ((g.leveled ∅ cs).filter fun c => c.2 == n).map Prod.fst = level := by
  rw [levels, List.getElem?_map, Option.map_eq_some_iff]
  constructor
  · rintro ⟨k, hk, rfl⟩
    obtain ⟨hlt, rfl⟩ := List.getElem?_eq_some_iff.1 hk
    rw [List.getElem_range]
    exact ⟨by simpa using hlt, rfl⟩
  · rintro ⟨hlt, rfl⟩
    exact ⟨n, List.getElem?_range hlt, rfl⟩

theorem atLevel_iff : g.AtLevel cs c n ↔ (c, n) ∈ g.leveled ∅ cs := by
  have hmem : c ∈ ((g.leveled ∅ cs).filter fun c => c.2 == n).map Prod.fst ↔
      (c, n) ∈ g.leveled ∅ cs := by simp
  unfold AtLevel
  constructor
  · rintro ⟨level, hlevel, hc⟩
    obtain ⟨-, rfl⟩ := getElem?_levels_eq_some_iff.1 hlevel
    exact hmem.1 hc
  · intro hn
    have hlt := le_foldl_max 0 (List.mem_map_of_mem (f := fun c => c.2 + 1) hn)
    exact ⟨_, getElem?_levels_eq_some_iff.2 ⟨hlt, rfl⟩, hmem.2 hn⟩

theorem Condensed.nil_notMem_levels (hcs : g.Condensed cs) : [] ∉ g.levels cs := by
  intro hnil
  obtain ⟨n, hn⟩ := List.mem_iff_getElem?.1 hnil
  obtain ⟨hlt, hempty⟩ := getElem?_levels_eq_some_iff.1 hn
  rcases foldl_max_mem 0 ((g.leveled ∅ cs).map fun c => c.2 + 1) with hzero | hmem
  · omega
  · -- the number of levels is that of the highest component
    obtain ⟨⟨c, top⟩, htop, hheight⟩ := List.mem_map.1 hmem
    have hle : n ≤ top := by
      rw [← hheight] at hlt
      exact Nat.le_of_lt_succ hlt
    obtain ⟨c', hc'⟩ := hcs.exists_at_level htop hle
    have hin : c' ∈ ((g.leveled ∅ cs).filter fun c => c.2 == n).map Prod.fst := by simpa using hc'
    rw [hempty] at hin
    cases hin

theorem Condensed.perm_flatten_levels (hcs : g.Condensed cs) : (g.levels cs).flatten.Perm cs :=
  (List.perm_ext_iff_of_nodup (nodup_flatten_levels hcs.nodup) hcs.nodup).2 fun _ =>
    mem_flatten_levels

/-- The levels of a program, for any list of its components that has callees before callers. Every
component is in one level, no level is empty, calls to another component go to a lower level, and
the number of a level is the length of the longest chain of calls from a component of the level. -/
theorem levels_build {p : Program} (hp : p.WellFormed) {cs : List Component}
    (hcs : (build p).Condensed cs) :
    ((build p).levels cs).flatten.Perm cs ∧ [] ∉ (build p).levels cs ∧
      ∀ c ∈ cs, ∃ n, (build p).AtLevel cs c n ∧
        (∀ n', (build p).AtLevel cs c n' → n' = n) ∧
        (∀ c' n', (build p).AtLevel cs c' n' → (build p).CallsInto c c' → n' < n) ∧
        (∀ path, (build p).Chain cs c path → (c :: path).Nodup) ∧
        IsGreatest {k | ∃ path, (build p).Chain cs c path ∧ path.length = k} n := by
  have hg := closed_build hp
  refine ⟨hcs.perm_flatten_levels, hcs.nil_notMem_levels, fun c hc => ?_⟩
  obtain ⟨n, hn⟩ := exists_level (g := build p) hc
  refine ⟨n, atLevel_iff.2 hn, fun n' hn' => ?_, fun c' n' hn' hcalls => ?_,
    fun path hpath => ?_, ?_⟩
  · exact hcs.level_unique (atLevel_iff.1 hn') hn
  · exact hcs.level_lt hg hn (atLevel_iff.1 hn') hcalls
  · exact (hcs.chain_levels hg hn hpath).2.1
  · exact hcs.isGreatest_level hg hn

/-- Two methods that call each other, beside one that calls the same leaf, below an entry point that
also calls the leaf itself. -/
def layersDocument : ProgramDocument :=
  [⟨"leaf", [], some .done, none⟩,
    ⟨"wrapper", [], some (.run ⟨(), none⟩ (.call "leaf" [] none) .done), none⟩,
    ⟨"even", [], some (.run ⟨(), none⟩ (.call "odd" [] none)
      (.run ⟨(), none⟩ (.call "leaf" [] none) .done)), none⟩,
    ⟨"odd", [], some (.run ⟨(), none⟩ (.call "even" [] none) .done), none⟩,
    ⟨"main", [], some (.run ⟨(), none⟩ (.call "wrapper" [] none)
      (.run ⟨(), none⟩ (.call "leaf" [] none)
        (.run ⟨(), none⟩ (.call "even" [] none) .done))), none⟩]

def layers : Program :=
  match ((Program.ofDocument layersDocument).runOn ∅).1 with
  | .ok program => program
  | .error _ => ∅

theorem layers_loaded : (Program.ofDocument layersDocument).runOn ∅ = (.ok layers, ∅) := rfl

theorem levels_build_layers :
    layers.WellFormed ∧ (build layers).Condensed (build layers).components ∧
      (build layers).levels (build layers).components =
        [[[⟨0⟩]], [[⟨1⟩], [⟨2⟩, ⟨3⟩]], [[⟨4⟩]]] ∧
      IsGreatest {k | ∃ path, (build layers).Chain (build layers).components [⟨4⟩] path ∧
        path.length = k} 2 := by
  have hp : layers.WellFormed := Program.yields_ofDocument layersDocument ∅ _ _ layers_loaded
  have hcs := condensed_components (closed_build hp)
  have hlevels : (build layers).levels (build layers).components =
      [[[⟨0⟩]], [[⟨1⟩], [⟨2⟩, ⟨3⟩]], [[⟨4⟩]]] := by decide
  have htop : (build layers).AtLevel (build layers).components [⟨4⟩] 2 :=
    ⟨[[⟨4⟩]], by rw [hlevels]; rfl, List.mem_singleton_self _⟩
  obtain ⟨n, -, hunique, -, -, hgreatest⟩ := (levels_build hp hcs).2.2 [⟨4⟩] (by decide)
  obtain rfl := hunique 2 htop
  exact ⟨hp, hcs, hlevels, hgreatest⟩

end CallGraph

end TaintFlow
