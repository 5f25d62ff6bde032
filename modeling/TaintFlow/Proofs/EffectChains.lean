import TaintFlow.Proofs.Explanations

/-!
Effects reach what they are called to reach. A chain of an effect is a path along calls from a
method that declares the effect (`Program.CallPath`), and the search finds a shortest one for every
method that calls lead to: after some rounds it has found the methods at the end of paths up to that
length and no others, each with a shortest path, and its frontier is those that are as far away as
that (`EffectIndex.Spread.Searched`). So an issue that asks for an effect stands if and only if the
effect reaches its method (`EffectIndex.gate_reached`).
-/

namespace TaintFlow

/-! ### Shortest traces -/

namespace Trace

variable {ts : List Trace} {t : Trace}

def shorter (best : Option Trace) (t : Trace) : Option Trace :=
  if best.any fun b => b.length ≤ t.length then best else some t

theorem shortest?_eq (ts : List Trace) : shortest? ts = ts.foldl shorter none := rfl

theorem length_le_of_shorter {best : Option Trace} {u : Trace}
    (h : ∀ b, shorter best u = some b → t.length ≤ b.length) :
    (∀ b, best = some b → t.length ≤ b.length) ∧ t.length ≤ u.length := by
  unfold shorter at h
  cases best with
  | none => exact ⟨nofun, h u rfl⟩
  | some b =>
    rw [Option.any_some] at h
    split at h
    · next hle => exact ⟨h, Nat.le_trans (h b rfl) (of_decide_eq_true hle)⟩
    · next hlt =>
      have hlt : u.length < b.length := by simpa using hlt
      refine ⟨?_, h u rfl⟩
      intro _ hb
      cases hb
      exact Nat.le_trans (h u rfl) (Nat.le_of_lt hlt)

theorem compare_append (t u v : Trace) : compare (t ++ u) (t ++ v) = compare u v := by
  induction t with
  | nil => rfl
  | cons s t ih =>
    rw [List.cons_append, List.cons_append, ← ih]
    refine List.compareLex_cons_cons.trans ?_
    rw [LinearOrd.compare_self]
    rfl

/-- No trace of the list is shorter than the one that is chosen. -/
theorem length_shortest?_le (h : shortest? ts = some t) : ∀ u ∈ ts, t.length ≤ u.length := by
  suffices hfold : ∀ best, ts.foldl shorter best = some t →
      (∀ b, best = some b → t.length ≤ b.length) ∧ ∀ u ∈ ts, t.length ≤ u.length from
    (hfold none h).2
  clear h
  induction ts with
  | nil =>
    rintro _ rfl
    exact ⟨fun b hb => Option.some.inj hb ▸ Nat.le_refl _, nofun⟩
  | cons u ts ih =>
    intro best h
    obtain ⟨hbest, hts⟩ := ih _ h
    obtain ⟨hbest, hu⟩ := length_le_of_shorter hbest
    exact ⟨hbest, List.forall_mem_cons.2 ⟨hu, hts⟩⟩

theorem exists_shortest?_iff : (∃ t, shortest? ts = some t) ↔ ∃ t, t ∈ ts := by
  have hstep (best : Option Trace) (u : Trace) :
      (∃ t, shorter best u = some t) ↔ (∃ t, best = some t) ∨ True := by
    unfold shorter
    cases best with
    | none => simp
    | some b => split <;> simp
  rw [shortest?_eq, foldl_iff (P := fun best : Option Trace => ∃ t, best = some t) hstep ts none]
  simp

end Trace

/-! ### Paths along calls -/

def Method.firstCall? (m : Method) (callee : String) : Option Nat :=
  (m.calls.find? (·.2 == callee)).map Prod.fst

def Method.Declares (m : Method) (effect : KindId) : Prop :=
  ∃ model, m.declared = some model ∧ effect ∈ model.effectSources

/-- The chain is a path along calls from one method to another, with a step for every call on it:
the caller, the position of its first call of the callee, the callee, and a text that all steps
share. -/
inductive Program.CallPath (p : Program) (port : String) : Method → Method → Trace → Prop where
  | here {m : Method} (hm : m ∈ p.methods) : CallPath p port m m []
  | call {start caller callee : Method} {chain : Trace} {position : Nat}
      (path : CallPath p port start caller chain) (hcallee : callee ∈ p.methods)
      (hfirst : caller.firstCall? callee.name = some position) :
      CallPath p port start callee (chain ++ [⟨caller.name, position, callee.name, port⟩])

namespace Program.CallPath

variable {p : Program} {port : String} {start m : Method} {chain : Trace}

theorem mem_left (h : p.CallPath port start m chain) : start ∈ p.methods := by
  induction h with
  | here hm => exact hm
  | call _ _ _ ih => exact ih

theorem mem_right (h : p.CallPath port start m chain) : m ∈ p.methods := by
  cases h with
  | here hm => exact hm
  | call _ hcallee => exact hcallee

end Program.CallPath

namespace CallGraph

variable {p : Program} {m callee : Method}

theorem get?_foldl_addCall_eq (calls : List (Nat × String)) (found : OrdMap MethodId Nat)
    (k : MethodId) :
    (calls.foldl (addCall p) found).get? k = (found.get? k).or
      ((calls.find? fun call => (p.lookup call.2).map Method.id = some k).map Prod.fst) := by
  induction calls generalizing found with
  | nil => simp
  | cons call calls ih =>
    rw [List.foldl_cons, ih, List.find?_cons, addCall]
    cases p.lookup call.2 with
    | none => simp
    | some own =>
      by_cases hk : k = own.id
      · subst hk
        cases hfound : found.get? own.id <;> simp [OrdMap.get?_alter, hfound]
      · simp [OrdMap.get?_alter, hk, Ne.symm hk]

/-- The graph gives the first call of every callee. -/
theorem mem_callees_iff (hp : p.WellFormed) (hm : m ∈ p.methods) (hcallee : callee ∈ p.methods)
    {position : Nat} :
    (callee.id, position) ∈ (build p).callees m.id ↔
      m.firstCall? callee.name = some position := by
  have hname (call : Nat × String) :
      decide ((p.lookup call.2).map Method.id = some callee.id) = (call.2 == callee.name) := by
    rw [Bool.eq_iff_iff, decide_eq_true_iff, beq_iff_eq]
    constructor
    · intro h
      obtain ⟨own, hown, hid⟩ := Option.map_eq_some_iff.1 h
      obtain ⟨hmem, hname⟩ := Program.mem_of_lookup hown
      rw [← hname, hp.eq_of_id hmem hcallee hid]
    · intro h
      rw [h, hp.lookup_name hcallee]
      rfl
  rw [callees_build hp hm, ← OrdMap.get?_eq_some_iff, get?_foldl_addCall_eq]
  simp only [OrdMap.get?_empty, Option.none_or, hname, Method.firstCall?]

end CallGraph

/-! ### The search -/

theorem OrdSet.mem_ofKeys {α ν : Type} [LinearOrd α] {m : OrdMap α ν} {a : α} :
    a ∈ OrdSet.ofKeys m ↔ ∃ v, m.get? a = some v := by
  show ((m.mapValues fun _ _ => ()).get? a).isSome ↔ _
  rw [OrdMap.get?_mapValues, Option.isSome_map, Option.isSome_iff_exists]

namespace EffectIndex

inductive Arrives (g : CallGraph) (stepOf : MethodId → MethodId × Nat → Step)
    (starts : List MethodId) : MethodId → Trace → Prop where
  | start {k : MethodId} (h : k ∈ starts) : Arrives g stepOf starts k []
  | call {caller : MethodId} {chain : Trace} (path : Arrives g stepOf starts caller chain)
      {call : MethodId × Nat} (h : call ∈ g.callees caller) :
      Arrives g stepOf starts call.1 (chain ++ [stepOf caller call])

namespace Spread

variable {s n : Spread} {k m : MethodId} {chain : Trace}

theorem get?_reach : (s.reach m chain).chains.get? k =
    (s.chains.get? k).or (if k = m then some chain else none) := by
  unfold reach
  split
  · next h =>
    obtain ⟨own, hown⟩ := OrdMap.contains_iff.1 h
    by_cases hk : k = m
    · subst hk
      rw [hown, Option.some_or]
    · rw [if_neg hk, Option.or_none]
  · next h =>
    have hnone : s.chains.get? m = none := by simpa [OrdMap.contains] using h
    rw [OrdMap.get?_insert]
    by_cases hk : k = m
    · subst hk
      rw [if_pos rfl, if_pos rfl, hnone, Option.none_or]
    · rw [if_neg hk, if_neg hk, Option.or_none]

theorem get?_reach_of_some {own : Trace} (h : s.chains.get? k = some own) :
    (s.reach m chain).chains.get? k = some own := by
  rw [get?_reach, h, Option.some_or]

theorem exists_get?_reach_iff : (∃ own, (s.reach m chain).chains.get? k = some own) ↔
    (∃ own, s.chains.get? k = some own) ∨ k = m := by
  rw [get?_reach]
  by_cases hk : k = m
  · simp [hk]
  · simp [hk]

theorem mem_frontier_reach : k ∈ (s.reach m chain).frontier ↔
    k ∈ s.frontier ∨ k = m ∧ s.chains.get? m = none := by
  unfold reach
  split
  · next h =>
    obtain ⟨own, hown⟩ := OrdMap.contains_iff.1 h
    simp [hown]
  · next h =>
    have hnone : s.chains.get? m = none := by simpa [OrdMap.contains] using h
    simp [hnone]

end Spread

section Search

variable {g : CallGraph} {stepOf : MethodId → MethodId × Nat → Step} {starts : List MethodId}
  {s n : Spread} {depth : Nat}

/-- What a search has found after as many rounds: the methods at the end of paths up to that length,
each with a path that is no longer than any other. The frontier is what the last round found. -/
structure Spread.Searched (g : CallGraph) (stepOf : MethodId → MethodId × Nat → Step)
    (starts : List MethodId) (depth : Nat) (s : Spread) : Prop where
  sound : ∀ k chain, s.chains.get? k = some chain →
    Arrives g stepOf starts k chain ∧ chain.length ≤ depth
  complete : ∀ k other, Arrives g stepOf starts k other → other.length ≤ depth →
    ∃ chain, s.chains.get? k = some chain ∧ chain.length ≤ other.length
  frontier : ∀ k, k ∈ s.frontier ↔ ∃ chain, s.chains.get? k = some chain ∧ chain.length = depth

/-- What a round of a search may add to what was found: callees of the frontier, which are the next
frontier. -/
structure Spread.Extends (g : CallGraph) (stepOf : MethodId → MethodId × Nat → Step)
    (s n : Spread) : Prop where
  kept : ∀ k chain, s.chains.get? k = some chain → n.chains.get? k = some chain
  added : ∀ k chain, n.chains.get? k = some chain → s.chains.get? k = some chain ∨
    k ∈ n.frontier ∧ ∃ caller ∈ s.frontier, ∃ call ∈ g.callees caller, call.1 = k ∧
      chain = s.chains.getD caller [] ++ [stepOf caller call]
  fresh : ∀ k ∈ n.frontier, s.chains.get? k = none ∧ ∃ chain, n.chains.get? k = some chain

namespace Spread

theorem extends_self : Extends g stepOf s ⟨s.chains, []⟩ where
  kept _ _ h := h
  added _ _ h := .inl h
  fresh := nofun

theorem Extends.reach (h : Extends g stepOf s n) {caller : MethodId} (hcaller : caller ∈ s.frontier)
    {call : MethodId × Nat} (hcall : call ∈ g.callees caller) :
    Extends g stepOf s
      (n.reach call.1 (s.chains.getD caller [] ++ [stepOf caller call])) where
  kept k chain hk := get?_reach_of_some (h.kept k chain hk)
  added k chain hk := by
    rw [get?_reach, Option.or_eq_some_iff] at hk
    rcases hk with hk | ⟨hnone, hk⟩
    · exact (h.added k chain hk).imp id fun ⟨hmem, hfrom⟩ =>
        ⟨mem_frontier_reach.2 (.inl hmem), hfrom⟩
    · obtain ⟨rfl, hchain⟩ := Option.ite_none_right_eq_some.1 hk
      cases hchain
      exact .inr ⟨mem_frontier_reach.2 (.inr ⟨rfl, hnone⟩), caller, hcaller, call, hcall, rfl, rfl⟩
  fresh k hk := by
    rcases mem_frontier_reach.1 hk with hk | ⟨rfl, hnone⟩
    · obtain ⟨hold, chain, hchain⟩ := h.fresh k hk
      exact ⟨hold, chain, get?_reach_of_some hchain⟩
    · refine ⟨?_, exists_get?_reach_iff.2 (.inr rfl)⟩
      cases hold : s.chains.get? call.1 with
      | none => rfl
      | some chain => rw [h.kept _ _ hold] at hnone; cases hnone

/-- One caller of the frontier extends what was found, and finds all its callees. -/
theorem Extends.extend (hs : ∀ k ∈ s.frontier, ∃ chain, s.chains.get? k = some chain)
    (h : Extends g stepOf s n) {caller : MethodId} (hcaller : caller ∈ s.frontier) :
    Extends g stepOf s (EffectIndex.extend g stepOf n caller) := by
  obtain ⟨own, hown⟩ := hs caller hcaller
  refine List.foldlRecOn (motive := Extends g stepOf s) (g.callees caller) _ h
    fun n hn call hcall => ?_
  have hsame : n.chains.getD caller [] = s.chains.getD caller [] := by
    rw [OrdMap.getD, OrdMap.getD, hn.kept caller own hown, hown]
  rw [hsame]
  exact hn.reach hcaller hcall

theorem exists_get?_extend_iff {caller k : MethodId} :
    (∃ own, (EffectIndex.extend g stepOf n caller).chains.get? k = some own) ↔
      (∃ own, n.chains.get? k = some own) ∨ g.Calls caller k := by
  refine (foldl_iff (P := fun n : Spread => ∃ own, n.chains.get? k = some own)
    (Q := fun call : MethodId × Nat => k = call.1)
    (fun _ _ => exists_get?_reach_iff) (g.callees caller) n).trans (or_congr_right ?_)
  constructor
  · rintro ⟨call, hcall, rfl⟩
    exact ⟨call.2, hcall⟩
  · rintro ⟨position, hcall⟩
    exact ⟨_, hcall, rfl⟩

variable (g stepOf) in
/-- The round of a search: it extends what was found by all callees of the frontier. -/
theorem extends_round (hs : ∀ k ∈ s.frontier, ∃ chain, s.chains.get? k = some chain) :
    Extends g stepOf s (s.frontier.foldl (EffectIndex.extend g stepOf) ⟨s.chains, []⟩) ∧
      ∀ caller ∈ s.frontier, ∀ k, g.Calls caller k →
        ∃ chain, (s.frontier.foldl (EffectIndex.extend g stepOf) ⟨s.chains, []⟩).chains.get? k =
          some chain := by
  constructor
  · exact List.foldlRecOn (motive := Extends g stepOf s) s.frontier _ extends_self
      fun n hn caller hcaller => hn.extend hs hcaller
  · intro caller hcaller k hk
    exact (foldl_iff (P := fun n : Spread => ∃ own, n.chains.get? k = some own)
      (Q := fun caller => g.Calls caller k) (fun _ _ => exists_get?_extend_iff) s.frontier _).2
      (.inr ⟨caller, hcaller, hk⟩)

namespace Searched

theorem exists_of_mem_frontier (h : Searched g stepOf starts depth s) {k : MethodId}
    (hk : k ∈ s.frontier) : ∃ chain, s.chains.get? k = some chain :=
  ((h.frontier k).1 hk).imp fun _ => And.left

section Round

variable {k caller : MethodId} {chain other : Trace} {call : MethodId × Nat}
  (h : Searched g stepOf starts depth s) (hn : Extends g stepOf s n)

include h hn

/-- What is new is a callee of the frontier, so its path has one call more. -/
theorem found_or_fresh (hk : n.chains.get? k = some chain) : s.chains.get? k = some chain ∨
    k ∈ n.frontier ∧ Arrives g stepOf starts k chain ∧ chain.length = depth + 1 := by
  refine (hn.added k chain hk).imp_right ?_
  rintro ⟨hmem, caller, hcaller, call, hcall, rfl, rfl⟩
  obtain ⟨own, hown, hlength⟩ := (h.frontier caller).1 hcaller
  have hgetD : s.chains.getD caller [] = own := by rw [OrdMap.getD, hown]; rfl
  rw [hgetD, List.length_append, hlength]
  exact ⟨hmem, .call (h.sound caller own hown).1 hcall, rfl⟩

theorem sound_next (hk : n.chains.get? k = some chain) :
    Arrives g stepOf starts k chain ∧ chain.length ≤ depth + 1 := by
  rcases h.found_or_fresh hn hk with hk | ⟨-, hpath, hlength⟩
  · exact (h.sound k chain hk).imp_right Nat.le_succ_of_le
  · exact ⟨hpath, Nat.le_of_eq hlength⟩

/-- Where a path leads that is no longer than the rounds before, has been found before. -/
theorem complete_kept (hpath : Arrives g stepOf starts k other) (hlength : other.length ≤ depth) :
    ∃ chain, n.chains.get? k = some chain ∧ chain.length ≤ other.length := by
  obtain ⟨chain, hchain, hle⟩ := h.complete k other hpath hlength
  exact ⟨chain, hn.kept k chain hchain, hle⟩

/-- Where a path leads that has one call more. Its caller has been found: by the last round, so that
the callee is found now, or earlier, so that the callee has been found too. -/
theorem complete_call
    (hall : ∀ caller ∈ s.frontier, ∀ k, g.Calls caller k → ∃ chain, n.chains.get? k = some chain)
    (hpath : Arrives g stepOf starts caller other) (hlength : other.length = depth)
    (hcall : call ∈ g.callees caller) :
    ∃ chain, n.chains.get? call.1 = some chain ∧ chain.length ≤ depth + 1 := by
  obtain ⟨own, hown, hle⟩ := h.complete caller other hpath (Nat.le_of_eq hlength)
  by_cases hlast : own.length = depth
  · obtain ⟨chain, hchain⟩ :=
      hall caller ((h.frontier caller).2 ⟨own, hown, hlast⟩) call.1 ⟨call.2, hcall⟩
    exact ⟨chain, hchain, (h.sound_next hn hchain).2⟩
  · have hearlier : (own ++ [stepOf caller call]).length ≤ depth := by
      rw [List.length_append, List.length_singleton]
      omega
    obtain ⟨chain, hchain, hle⟩ :=
      h.complete_kept hn (.call (h.sound caller own hown).1 hcall) hearlier
    exact ⟨chain, hchain, Nat.le_succ_of_le (Nat.le_trans hle hearlier)⟩

theorem mem_frontier_next : k ∈ n.frontier ↔
    ∃ chain, n.chains.get? k = some chain ∧ chain.length = depth + 1 := by
  constructor
  · intro hk
    obtain ⟨hnone, chain, hchain⟩ := hn.fresh k hk
    refine ⟨chain, hchain, ?_⟩
    rcases h.found_or_fresh hn hchain with hchain | ⟨-, -, hlength⟩
    · rw [hnone] at hchain
      cases hchain
    · exact hlength
  · rintro ⟨chain, hchain, hlength⟩
    rcases h.found_or_fresh hn hchain with hchain | ⟨hmem, -⟩
    · have := (h.sound k chain hchain).2
      omega
    · exact hmem

end Round

/-- A round goes one call further. -/
theorem round (h : Searched g stepOf starts depth s) :
    Searched g stepOf starts (depth + 1)
      (s.frontier.foldl (EffectIndex.extend g stepOf) ⟨s.chains, []⟩) := by
  obtain ⟨hn, hall⟩ := extends_round g stepOf fun k => h.exists_of_mem_frontier
  constructor
  case sound => exact fun k chain => h.sound_next hn
  case frontier => exact fun k => h.mem_frontier_next hn
  case complete =>
    intro k other hpath hlength
    by_cases hshort : other.length ≤ depth
    · exact h.complete_kept hn hpath hshort
    · cases hpath with
      | start => exact absurd (Nat.zero_le depth) hshort
      | call path hcall =>
        rw [List.length_append, List.length_singleton] at hlength hshort ⊢
        obtain ⟨chain, hchain, hle⟩ := h.complete_call hn hall path (by omega) hcall
        exact ⟨chain, hchain, by omega⟩

theorem shortest (h : Searched g stepOf starts depth s) {k : MethodId} {chain other : Trace}
    (hk : s.chains.get? k = some chain) (hother : Arrives g stepOf starts k other) :
    chain.length ≤ other.length := by
  by_cases hlength : other.length ≤ depth
  · obtain ⟨own, hown, hle⟩ := h.complete k other hother hlength
    rw [hk] at hown
    cases hown
    exact hle
  · exact Nat.le_of_lt (Nat.lt_of_le_of_lt (h.sound k chain hk).2 (Nat.not_le.1 hlength))

/-- A search whose last round found nothing has found all that calls lead to. -/
theorem all_found (h : Searched g stepOf starts depth s) (hdone : s.frontier = [])
    {k : MethodId} {other : Trace} (hother : Arrives g stepOf starts k other) :
    ∃ chain, s.chains.get? k = some chain := by
  have hshort : ∀ k chain, s.chains.get? k = some chain → chain.length < depth := by
    intro k chain hchain
    refine Nat.lt_of_le_of_ne (h.sound k chain hchain).2 fun hlength => ?_
    have := (h.frontier k).2 ⟨chain, hchain, hlength⟩
    rw [hdone] at this
    cases this
  induction hother with
  | start hk => exact (h.complete _ [] (.start hk) (Nat.zero_le _)).imp fun _ => And.left
  | @call caller before path call hcall ih =>
    obtain ⟨own, hown⟩ := ih
    have hlength : (own ++ [stepOf caller call]).length ≤ depth := by
      have := hshort caller own hown
      rw [List.length_append, List.length_singleton]
      omega
    exact (h.complete _ _ (.call (h.sound caller own hown).1 hcall) hlength).imp
      fun _ => And.left

end Searched

theorem get?_foldl_reach_nil {k : MethodId} (starts : List MethodId) (s : Spread) :
    (starts.foldl (fun s m => s.reach m []) s).chains.get? k =
      (s.chains.get? k).or (if k ∈ starts then some [] else none) := by
  induction starts generalizing s with
  | nil => simp
  | cons m starts ih =>
    rw [List.foldl_cons, ih, get?_reach, Option.or_assoc]
    by_cases hk : k = m
    · simp [hk]
    · simp [hk]

theorem mem_frontier_foldl_reach_nil {k : MethodId} (starts : List MethodId) :
    k ∈ (starts.foldl (fun s m => s.reach m []) ⟨∅, []⟩ : Spread).frontier ↔
      ∃ chain, (starts.foldl (fun s m => s.reach m []) ⟨∅, []⟩ : Spread).chains.get? k =
        some chain := by
  refine List.foldlRecOn (motive := fun s : Spread => k ∈ s.frontier ↔ ∃ chain,
    s.chains.get? k = some chain) starts _ (by simp [OrdMap.get?_empty]) fun s hs m _ => ?_
  rw [mem_frontier_reach, exists_get?_reach_iff, hs]
  by_cases hk : k = m
  · subst hk
    cases s.chains.get? k <;> simp
  · simp [hk]

/-- The methods that a search starts from are all that it has found before the first round. -/
theorem searched_start :
    Searched g stepOf starts 0 (starts.foldl (fun (s : Spread) m => s.reach m []) ⟨∅, []⟩) := by
  have hfound (k : MethodId) (chain : Trace) :
      (starts.foldl (fun s m => s.reach m []) ⟨∅, []⟩ : Spread).chains.get? k = some chain ↔
        k ∈ starts ∧ [] = chain := by
    rw [get?_foldl_reach_nil, OrdMap.get?_empty, Option.none_or, Option.ite_none_right_eq_some,
      Option.some.injEq]
  constructor
  case sound =>
    intro k chain hk
    obtain ⟨hmem, rfl⟩ := (hfound k chain).1 hk
    exact ⟨.start hmem, Nat.le_refl _⟩
  case complete =>
    intro k other hpath hlength
    cases hpath with
    | start hk => exact ⟨[], (hfound k []).2 ⟨hk, rfl⟩, Nat.le_refl _⟩
    | call => simp at hlength
  case frontier =>
    intro k
    rw [mem_frontier_foldl_reach_nil]
    refine exists_congr fun chain => (and_iff_left_of_imp fun hk => ?_).symm
    rw [← ((hfound k chain).1 hk).2, List.length_nil]

end Spread

theorem mem_methods_of_arrives (hg : g.Closed) (hstarts : ∀ k ∈ starts, k ∈ g.methods)
    {k : MethodId} {chain : Trace} (h : Arrives g stepOf starts k chain) : k ∈ g.methods := by
  cases h with
  | start hk => exact hstarts k hk
  | @call caller _ _ call hcall => exact hg caller call.1 ⟨call.2, hcall⟩

theorem exists_arrives_iff {k : MethodId} :
    (∃ chain, Arrives g stepOf starts k chain) ↔ ∃ s ∈ starts, g.Reaches s k := by
  constructor
  · rintro ⟨chain, h⟩
    induction h with
    | start hk => exact ⟨_, hk, .refl⟩
    | @call _ _ _ call hcall ih =>
      obtain ⟨s, hs, hreaches⟩ := ih
      exact ⟨s, hs, hreaches.tail ⟨call.2, hcall⟩⟩
  · rintro ⟨s, hs, hreaches⟩
    induction hreaches with
    | refl => exact ⟨[], .start hs⟩
    | tail _ hcalls ih =>
      obtain ⟨chain, hpath⟩ := ih
      obtain ⟨position, hcall⟩ := hcalls
      exact ⟨_, .call hpath hcall⟩

/-- What a search comes to: a shortest path to every method that calls lead to. Every round but the
last one finds a new method, so there are enough rounds for the methods that are left. -/
theorem spread_spec (hg : g.Closed) (hstarts : ∀ k ∈ starts, k ∈ g.methods) (rounds : Nat)
    (h : s.Searched g stepOf starts depth)
    (hrounds : (g.unseen (OrdSet.ofKeys s.chains)).length ≤ rounds) :
    (∀ k chain, (spread g stepOf rounds s).get? k = some chain → Arrives g stepOf starts k chain ∧
      ∀ other, Arrives g stepOf starts k other → chain.length ≤ other.length) ∧
    ∀ k other, Arrives g stepOf starts k other →
      ∃ chain, (spread g stepOf rounds s).get? k = some chain := by
  induction rounds generalizing s depth with
  | zero =>
    refine ⟨fun k chain hk => ⟨(h.sound k chain hk).1, fun _ => h.shortest hk⟩,
      fun k other hother => ?_⟩
    -- no round is left, so all methods have been found
    have hnil := List.eq_nil_of_length_eq_zero (Nat.le_zero.1 hrounds)
    have hk := List.filter_eq_nil_iff.1 hnil k (mem_methods_of_arrives hg hstarts hother)
    by_contra hnot
    exact hk (OrdSet.not_contains_iff.2 fun hmem => hnot (OrdSet.mem_ofKeys.1 hmem))
  | succ rounds ih =>
    have hnext := h.round
    unfold spread
    simp only
    split
    · next hempty =>
      exact ⟨fun k chain hk => ⟨(hnext.sound k chain hk).1, fun _ => hnext.shortest hk⟩,
        fun k other => hnext.all_found (List.isEmpty_iff.1 hempty)⟩
    · next hnonempty =>
      refine ih hnext ?_
      obtain ⟨k, hk⟩ := List.exists_mem_of_ne_nil _ fun hnil => hnonempty (List.isEmpty_iff.2 hnil)
      have hext := (Spread.extends_round g stepOf fun k => h.exists_of_mem_frontier).1
      obtain ⟨hnone, chain, hchain⟩ := hext.fresh k hk
      have hmethod := mem_methods_of_arrives hg hstarts (hnext.sound k chain hchain).1
      have hkept (k : MethodId) (hk : k ∈ OrdSet.ofKeys s.chains) : k ∈ OrdSet.ofKeys
          (s.frontier.foldl (extend g stepOf) ⟨s.chains, []⟩).chains :=
        OrdSet.mem_ofKeys.2 ((OrdSet.mem_ofKeys.1 hk).imp (hext.kept k))
      have hunseen : ¬ k ∈ OrdSet.ofKeys s.chains := fun hmem => by
        rw [OrdSet.mem_ofKeys, hnone] at hmem
        simp at hmem
      have hlt := CallGraph.unseen_lt hkept hmethod (OrdSet.mem_ofKeys.2 ⟨chain, hchain⟩) hunseen
      omega

end Search

/-! ### Effects -/

section Effects

variable {p : Program} {t : KindTable} {effect : KindId} {kinds : OrdSet KindId} {k : MethodId}
  {chain : Trace}

theorem mem_seeds {k : MethodId} :
    k ∈ seeds p effect ↔ ∃ m ∈ p.methods, m.Declares effect ∧ m.id = k := by
  rw [seeds, List.mem_map]
  refine exists_congr fun m => ?_
  rw [List.mem_filter, and_assoc, Option.any_eq_true]
  rfl

theorem mem_effects_of_declares {m : Method} (hm : m ∈ p.methods) (h : m.Declares effect) :
    effect ∈ effects p := by
  obtain ⟨model, hmodel, hmem⟩ := h
  refine (foldl_iff (P := fun ks : OrdSet KindId => effect ∈ ks) (fun _ _ => OrdSet.mem_union)
    p.methods ∅).2 (.inr ⟨m, hm, ?_⟩)
  rw [hmodel]
  exact hmem

/-- The paths of the graph that start at seeds are those of the program. -/
theorem arrives_iff (hp : p.WellFormed) :
    Arrives (CallGraph.build p) (step p t effect) (seeds p effect) k chain ↔
      ∃ s m, s.Declares effect ∧ m.id = k ∧ p.CallPath (t.name effect) s m chain := by
  constructor
  · intro h
    induction h with
    | start hk =>
      obtain ⟨m, hm, hdeclares, hid⟩ := mem_seeds.1 hk
      exact ⟨m, m, hdeclares, hid, .here hm⟩
    | @call caller chain path call hcall ih =>
      obtain ⟨s, m, hdeclares, rfl, hpath⟩ := ih
      obtain ⟨callee, hcallee, hid⟩ := (CallGraph.mem_methods_build hp).1
        (CallGraph.closed_build hp m.id call.1 ⟨call.2, hcall⟩)
      refine ⟨s, callee, hdeclares, hid, ?_⟩
      rw [step, hp.nameOf_id hpath.mem_right, ← hid, hp.nameOf_id hcallee]
      exact hpath.call hcallee ((CallGraph.mem_callees_iff hp hpath.mem_right hcallee).1
        (by rw [hid]; exact hcall))
  · rintro ⟨s, m, hdeclares, rfl, hpath⟩
    induction hpath with
    | here hm => exact .start (mem_seeds.2 ⟨_, hm, hdeclares, rfl⟩)
    | @call caller callee chain position path hcallee hfirst ih =>
      have hcall := (CallGraph.mem_callees_iff hp path.mem_right hcallee).2 hfirst
      have := Arrives.call ih hcall
      rwa [step, hp.nameOf_id path.mem_right, hp.nameOf_id hcallee] at this

/-- The chains of an effect are shortest paths to all methods that it reaches. -/
theorem chainsOf_spec (hp : p.WellFormed) :
    (∀ k chain, (chainsOf p (CallGraph.build p) t effect).get? k = some chain →
      Arrives (CallGraph.build p) (step p t effect) (seeds p effect) k chain ∧
      ∀ other, Arrives (CallGraph.build p) (step p t effect) (seeds p effect) k other →
        chain.length ≤ other.length) ∧
    ∀ k other, Arrives (CallGraph.build p) (step p t effect) (seeds p effect) k other →
      ∃ chain, (chainsOf p (CallGraph.build p) t effect).get? k = some chain := by
  have hstarts : ∀ k ∈ seeds p effect, k ∈ (CallGraph.build p).methods := by
    intro k hk
    obtain ⟨m, hm, -, hid⟩ := mem_seeds.1 hk
    exact (CallGraph.mem_methods_build hp).2 ⟨m, hm, hid⟩
  refine spread_spec (CallGraph.closed_build hp) hstarts p.size Spread.searched_start ?_
  refine Nat.le_trans (List.length_filter_le _ _) ?_
  rw [Program.size, ← List.length_map Method.id]
  refine (List.subperm_of_subset (CallGraph.build p).calls.nodup_keys fun k hk => ?_).length_le
  obtain ⟨m, hm, rfl⟩ := (CallGraph.mem_methods_build hp).1 hk
  exact List.mem_map_of_mem hm

def EffectPath (p : Program) (t : KindTable) (kinds : OrdSet KindId) (k : MethodId)
    (chain : Trace) : Prop :=
  ∃ effect ∈ kinds, ∃ s m : Method, s.Declares effect ∧ m.id = k ∧
    p.CallPath (t.name effect) s m chain

theorem exists_effectPath_iff (hp : p.WellFormed) :
    (∃ chain, EffectPath p t kinds k chain) ↔
      ∃ effect ∈ kinds, ∃ s ∈ p.methods, s.Declares effect ∧
        (CallGraph.build p).Reaches s.id k := by
  constructor
  · rintro ⟨chain, effect, heffect, hpath⟩
    obtain ⟨_, hseed, hreaches⟩ := exists_arrives_iff.1 ⟨chain, (arrives_iff hp).2 hpath⟩
    obtain ⟨s, hs, hdeclares, rfl⟩ := mem_seeds.1 hseed
    exact ⟨effect, heffect, s, hs, hdeclares, hreaches⟩
  · rintro ⟨effect, heffect, s, hs, hdeclares, hreaches⟩
    obtain ⟨chain, hpath⟩ :
        ∃ chain, Arrives (CallGraph.build p) (step p t effect) (seeds p effect) k chain :=
      exists_arrives_iff.2 ⟨s.id, mem_seeds.2 ⟨s, hs, hdeclares, rfl⟩, hreaches⟩
    exact ⟨chain, effect, heffect, (arrives_iff hp).1 hpath⟩

theorem get?_build {g : CallGraph} :
    ((build p g t).chains.get? effect).bind (·.get? k) = some chain ↔
      effect ∈ effects p ∧ (chainsOf p g t effect).get? k = some chain := by
  rw [build, OrdMap.get?_mapValues]
  cases h : (effects p).elements.get? effect with
  | none =>
    have hnot : ¬ effect ∈ effects p := fun hmem => by
      rw [OrdSet.get?_elements.2 hmem] at h
      cases h
    simp [hnot]
  | some u =>
    have hmem : effect ∈ effects p := OrdSet.get?_elements.1 h
    simp [hmem]

/-- The chain of a method is a shortest path by which one of the effects reaches it. -/
theorem chain?_spec (hp : p.WellFormed) :
    (∀ chain, (build p (CallGraph.build p) t).chain? k kinds = some chain →
      EffectPath p t kinds k chain ∧
        ∀ other, EffectPath p t kinds k other → chain.length ≤ other.length) ∧
    ((∃ chain, (build p (CallGraph.build p) t).chain? k kinds = some chain) ↔
      ∃ chain, EffectPath p t kinds k chain) := by
  -- the candidates are paths, and no path is shorter than all of them
  have hpaths : ∀ chain ∈ kinds.toList.filterMap fun effect =>
      ((build p (CallGraph.build p) t).chains.get? effect).bind (·.get? k),
      EffectPath p t kinds k chain := by
    intro chain hmem
    obtain ⟨effect, heffect, hchain⟩ := List.mem_filterMap.1 hmem
    obtain ⟨hpath, -⟩ := (chainsOf_spec hp).1 k chain (get?_build.1 hchain).2
    exact ⟨effect, OrdSet.mem_toList.1 heffect, (arrives_iff hp).1 hpath⟩
  have hbest : ∀ other, EffectPath p t kinds k other → ∃ chain ∈ kinds.toList.filterMap
      fun effect => ((build p (CallGraph.build p) t).chains.get? effect).bind (·.get? k),
      chain.length ≤ other.length := by
    rintro other ⟨effect, heffect, s, m, hdeclares, hid, hpath⟩
    have harrives := (arrives_iff hp).2 ⟨s, m, hdeclares, hid, hpath⟩
    obtain ⟨chain, hchain⟩ := (chainsOf_spec hp).2 k other harrives
    refine ⟨chain, List.mem_filterMap.2 ⟨effect, OrdSet.mem_toList.2 heffect, get?_build.2
      ⟨mem_effects_of_declares hpath.mem_left hdeclares, hchain⟩⟩, ?_⟩
    exact ((chainsOf_spec hp).1 k chain hchain).2 other harrives
  constructor
  · intro chain hchain
    refine ⟨hpaths chain (Trace.mem_of_shortest? hchain), fun other hother => ?_⟩
    obtain ⟨own, hown, hle⟩ := hbest other hother
    exact Nat.le_trans (Trace.length_shortest?_le hchain own hown) hle
  · refine Trace.exists_shortest?_iff.trans ⟨fun ⟨chain, h⟩ => ⟨chain, hpaths chain h⟩, ?_⟩
    exact fun ⟨other, h⟩ => (hbest other h).imp fun _ => And.left

end Effects

/-! ### Issues that wait for an effect -/

variable {e : EffectIndex}

structure Fronted (chain : Trace) (issue fronted : Issue) : Prop where
  traces : fronted.traces.toList = issue.traces.toList.map (chain ++ ·)
  rest : fronted = { issue with traces := fronted.traces }

theorem fronted_map (chain : Trace) (issue : Issue) :
    Fronted chain issue { issue with traces := issue.traces.map (chain ++ ·) } where
  traces := OrdSet.toList_eq_map (fun _ _ _ _ => Trace.compare_append chain _ _)
    fun _ => OrdSet.mem_map
  rest := rfl

/-- The gate keeps the issues that have a chain, in their order. -/
theorem gate_forall₂ (deferred : List DeferredIssue) :
    List.Forall₂ (fun d issue => ∃ chain, e.chain? d.method d.effectSources = some chain ∧
        Fronted chain d.issue issue)
      (deferred.filter fun d => (e.chain? d.method d.effectSources).isSome) (e.gate deferred) := by
  induction deferred with
  | nil => exact .nil
  | cons d deferred ih =>
    unfold gate at ih ⊢
    cases h : e.chain? d.method d.effectSources with
    | none =>
      rw [List.filter_cons_of_neg (by simp [h]), List.filterMap_cons_none (by simp [h])]
      exact ih
    | some chain =>
      rw [List.filter_cons_of_pos (by simp [h]), List.filterMap_cons_some (by rw [h]; rfl)]
      exact .cons ⟨chain, h, fronted_map chain d.issue⟩ ih

/-- An issue that asks for effects stands if and only if one of them reaches its method by zero or
more calls. The chain in front of its traces is then a path along calls from a method that declares
one of the effects, and no such path is shorter. -/
theorem gate_reached {p : Program} (hp : p.WellFormed) (t : KindTable) :
    (∀ k kinds,
      ((∃ chain, (build p (CallGraph.build p) t).chain? k kinds = some chain) ↔
        ∃ effect ∈ kinds, ∃ s ∈ p.methods, s.Declares effect ∧
          (CallGraph.build p).Reaches s.id k) ∧
      ∀ chain, (build p (CallGraph.build p) t).chain? k kinds = some chain →
        EffectPath p t kinds k chain ∧
          ∀ other, EffectPath p t kinds k other → chain.length ≤ other.length) ∧
    ∀ deferred : List DeferredIssue,
      List.Forall₂ (fun d issue => ∃ chain,
          (build p (CallGraph.build p) t).chain? d.method d.effectSources = some chain ∧
            Fronted chain d.issue issue)
        (deferred.filter fun d =>
          ((build p (CallGraph.build p) t).chain? d.method d.effectSources).isSome)
        ((build p (CallGraph.build p) t).gate deferred) :=
  ⟨fun _ _ => ⟨(chain?_spec hp).2.trans (exists_effectPath_iff hp), (chain?_spec hp).1⟩,
    gate_forall₂⟩

/-- An entry point whose callee calls itself before it loads. -/
def entryDocument : ProgramDocument :=
  [⟨"load", [], none, none⟩,
    ⟨"step", [], some (.run ⟨(), none⟩ (.call "step" [] none)
      (.run ⟨(), none⟩ (.call "load" [] none)
        (.run ⟨(), none⟩ (.call "load" [] none) .done))), none⟩,
    ⟨"entry", [], some (.run ⟨(), none⟩ (.call "step" [] none) .done),
      some ⟨[], [], [], [], ["Exported"]⟩⟩]

def entry : Program × KindTable :=
  match (Program.ofDocument entryDocument).runOn ∅ with
  | (.ok program, kinds) => (program, kinds)
  | (.error _, kinds) => (∅, kinds)

theorem entry_loaded : (Program.ofDocument entryDocument).runOn ∅ = (.ok entry.1, entry.2) := rfl

theorem gate_reached_entry :
    entry.1.WellFormed ∧
      (build entry.1 (CallGraph.build entry.1) entry.2).chain? ⟨0⟩ (OrdSet.ofList [⟨0⟩]) =
        some [⟨"entry", 0, "step", "Exported"⟩, ⟨"step", 1, "load", "Exported"⟩] ∧
      ∀ other, EffectPath entry.1 entry.2 (OrdSet.ofList [⟨0⟩]) ⟨0⟩ other → 2 ≤ other.length :=
  have hp : entry.1.WellFormed := Program.yields_ofDocument entryDocument ∅ _ _ entry_loaded
  have hchain : (build entry.1 (CallGraph.build entry.1) entry.2).chain? ⟨0⟩
      (OrdSet.ofList [⟨0⟩]) =
        some [⟨"entry", 0, "step", "Exported"⟩, ⟨"step", 1, "load", "Exported"⟩] := by decide
  ⟨hp, hchain, (((gate_reached hp entry.2).1 ⟨0⟩ (OrdSet.ofList [⟨0⟩])).2 _ hchain).2⟩

end EffectIndex

end TaintFlow
