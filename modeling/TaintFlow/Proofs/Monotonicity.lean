import TaintFlow.Proofs.CallSources
import TaintFlow.Proofs.Trail

/-!
An analysis sees more if more is known about the callees. Two walks of one body are compared, one
with less known about the callees: at every instruction that the smaller walk runs, the bigger walk
runs it from a bigger state (`Walk.trail_within`). Over a loop either walk may be the first to find
its head again; the one that does stays between the heads of the other. The comparison holds as long
as the smaller walk meets no call that merges fields of what it hands back, and not beyond.
-/

namespace TaintFlow

/-! ### Registers that hold nothing -/

/-- Registers that hold no location in `s` do not in `t`. -/
def State.UnboundIn (s t : State) : Prop := ∀ register, s.read register = ∅ → t.read register = ∅

namespace State

variable {s s' t t' u : State} {depth : Nat}

theorem Within.unboundIn (h : Within s t) : UnboundIn s t := fun r => (h.read r).empty

theorem Below.within (h : Below s t) (hunbound : UnboundIn s t) : Within s t :=
  ⟨fun r => ⟨h.subset r, hunbound r⟩, h.sub⟩

theorem Below.unboundIn (h : Below s t) : UnboundIn t s := fun r hr =>
  AliasSet.eq_empty_iff.2 fun l hl => AliasSet.eq_empty_iff.1 hr l (h.subset r l hl)

theorem UnboundIn.trans (h : UnboundIn s t) (h' : UnboundIn t u) : UnboundIn s u :=
  fun r hr => h' r (h r hr)

theorem below_join (s t : State) (depth : Nat) : Below s (s.join t depth) where
  subset _ _ hl := mem_read_join.2 (.inl hl)
  sub _ _ _ hf hholds := (holds_treeOf_join hf).2 (.inl hholds)

theorem below_join_right (s t : State) (depth : Nat) : Below t (s.join t depth) where
  subset _ _ hl := mem_read_join.2 (.inr hl)
  sub _ _ _ hf hholds := (holds_treeOf_join hf).2 (.inr hholds)

theorem unboundIn_join (h : UnboundIn s t) (h' : UnboundIn s u) : UnboundIn s (t.join u depth) :=
  fun r hr => AliasSet.eq_empty_iff.2 fun l hl => (mem_read_join.1 hl).elim
    (AliasSet.eq_empty_iff.1 (h r hr) l) (AliasSet.eq_empty_iff.1 (h' r hr) l)

theorem join_unboundIn_left : UnboundIn (s.join t depth) s := (below_join s t depth).unboundIn

theorem join_unboundIn_right : UnboundIn (s.join t depth) t := (below_join_right s t depth).unboundIn

theorem UnboundIn.bind {L L' : AliasSet} (h : UnboundIn s t) (hL : L = ∅ → L' = ∅)
    (register : String) : UnboundIn (s.bind register L) (t.bind register L') := by
  intro r
  rw [read_bind, read_bind]
  split
  · exact hL
  · exact h r

end State

open State (Within Below UnboundIn)

namespace Walk

variable {m : Method} {h : Heuristics} {f f' : String → Callee} {s t : State}

/-! ### What registers hold -/

theorem apply_unboundIn (hs : UnboundIn s t) (position : Nat) (instruction : Instruction) :
    UnboundIn (apply ⟨m, h, f⟩ position instruction s).1
      (apply ⟨m, h, f'⟩ position instruction t).1 := by
  cases instruction with
  | fresh dest => exact hs.bind id dest
  | move dest src => exact hs.bind (hs src) dest
  | fieldRead dest base field =>
    refine hs.bind (fun hempty => AliasSet.map_eq_empty_iff.2 ?_) dest
    exact hs base (AliasSet.map_eq_empty_iff.1 hempty)
  | fieldWrite base field src =>
    intro r hr
    simp only [apply, State.read_writeAll] at hr ⊢
    exact hs r hr
  | call callee args result =>
    intro r hr
    obtain ⟨hresult, hread⟩ := Call.read_run_eq_empty_iff.1 hr
    exact Call.read_run_eq_empty_iff.2 ⟨hresult, hs r hread⟩

theorem revisit_of_none {w : Walk} {pass : State → Option State × List Event} {es : List Event}
    (hp : pass s = (none, es)) (passes : Nat) : w.revisit pass (passes + 1) s = (s, es) := by
  rw [revisit, hp]

theorem revisit_of_le {w : Walk} {pass : State → Option State × List Event} {stop : State}
    {es : List Event} (hp : pass s = (some stop, es))
    (hle : stop.le s w.heuristics.maxFieldDepth = true) (passes : Nat) :
    w.revisit pass (passes + 1) s = (s.join stop w.heuristics.maxFieldDepth, es) := by
  rw [revisit, hp]
  simp only [hle, if_true]

theorem revisit_of_not_le {w : Walk} {pass : State → Option State × List Event} {stop : State}
    {es : List Event} (hp : pass s = (some stop, es))
    (hle : ¬ stop.le s w.heuristics.maxFieldDepth = true) (passes : Nat) :
    w.revisit pass (passes + 1) s =
      ((w.revisit pass passes (s.join stop w.heuristics.maxFieldDepth)).1,
        es ++ (w.revisit pass passes (s.join stop w.heuristics.maxFieldDepth)).2) := by
  rw [revisit, hp]
  simp only [hle, if_false, Bool.false_eq_true]

/-- Later heads of a loop have all that earlier ones have. -/
theorem below_revisit (w : Walk) (pass : State → Option State × List Event) (passes : Nat)
    (s : State) : Below s (w.revisit pass passes s).1 := by
  induction passes generalizing s with
  | zero => exact (Within.refl s).below
  | succ passes ih =>
    rcases hp : pass s with ⟨_ | stop, es⟩
    · rw [revisit_of_none hp]
      exact (Within.refl s).below
    · by_cases hle : stop.le s w.heuristics.maxFieldDepth = true
      · rw [revisit_of_le hp hle]
        exact State.below_join s stop _
      · rw [revisit_of_not_le hp hle]
        exact (State.below_join s stop _).trans (ih _)

theorem unboundIn_revisit (w : Walk) {pass : State → Option State × List Event}
    (hpass : ∀ t, UnboundIn s t → ∀ stop, (pass t).1 = some stop → UnboundIn s stop)
    (passes : Nat) (hs : UnboundIn s t) : UnboundIn s (w.revisit pass passes t).1 := by
  induction passes generalizing t with
  | zero => exact hs
  | succ passes ih =>
    rcases hp : pass t with ⟨_ | stop, es⟩
    · rw [revisit_of_none hp]
      exact hs
    · have hstop : UnboundIn s stop := hpass t hs stop (by rw [hp])
      by_cases hle : stop.le t w.heuristics.maxFieldDepth = true
      · rw [revisit_of_le hp hle]
        exact State.unboundIn_join hs hstop
      · rw [revisit_of_not_le hp hle]
        exact ih (State.unboundIn_join hs hstop)

theorem revisit_unboundIn (f f' : String → Callee) {pass pass' : State → Option State × List Event}
    (hpass : ∀ s t, UnboundIn s t → Option.Rel UnboundIn (pass s).1 (pass' t).1) (passes : Nat)
    (hs : UnboundIn s t) :
    UnboundIn (revisit ⟨m, h, f⟩ pass passes s).1 (revisit ⟨m, h, f'⟩ pass' passes t).1 := by
  induction passes generalizing s t with
  | zero => exact hs
  | succ passes ih =>
    have hstops := hpass s t hs
    rcases hp : pass s with ⟨stop, es⟩
    rcases hp' : pass' t with ⟨stop', es'⟩
    rw [hp, hp'] at hstops
    cases hstops with
    | none =>
      rw [revisit_of_none hp, revisit_of_none hp']
      exact hs
    | @some stop stop' hstop =>
      have hjoin : UnboundIn (s.join stop h.maxFieldDepth) (t.join stop' h.maxFieldDepth) :=
        State.unboundIn_join (State.join_unboundIn_left.trans hs)
          (State.join_unboundIn_right.trans hstop)
      by_cases hle : stop.le s h.maxFieldDepth = true
      · -- the body binds nothing that is unbound at this head, nor at any later one
        have hbody : UnboundIn s stop := (Below.of_le hle).unboundIn
        have hlater : UnboundIn s (revisit ⟨m, h, f'⟩ pass' (passes + 1) t).1 := by
          refine unboundIn_revisit _ (fun u hu stop' hstop' => ?_) _ hs
          have hrel := hpass s u hu
          rw [hp, hstop'] at hrel
          cases hrel with
          | some hrel => exact hbody.trans hrel
        rw [revisit_of_le hp hle]
        exact State.join_unboundIn_left.trans hlater
      · rw [revisit_of_not_le hp hle]
        by_cases hle' : stop'.le t h.maxFieldDepth = true
        · rw [revisit_of_le hp' hle']
          exact (below_revisit _ pass passes _).unboundIn.trans hjoin
        · rw [revisit_of_not_le hp' hle']
          exact ih hjoin

/-- Which registers are unbound after a block does not depend on what is known about callees. -/
theorem trail_unboundIn (f f' : String → Callee) (body : Body) (hs : UnboundIn s t) :
    Option.Rel UnboundIn (trail ⟨m, h, f⟩ body s).1 (trail ⟨m, h, f'⟩ body t).1 := by
  induction body generalizing s t with
  | done => exact .some hs
  | run place instruction rest ih => exact ih (apply_unboundIn hs place.position instruction)
  | leave place value rest => exact .none
  | branch place taken skipped rest ihTaken ihSkipped ihRest =>
    have hmeet := meet_rel (v := ⟨m, h, f⟩) (w := ⟨m, h, f'⟩)
      (fun _ _ _ _ hs ht => State.unboundIn_join (State.join_unboundIn_left.trans hs)
        (State.join_unboundIn_right.trans ht)) (ihTaken hs) (ihSkipped hs)
    simp only [trail]
    generalize meet ⟨m, h, f⟩ (trail ⟨m, h, f⟩ taken s).1 (trail ⟨m, h, f⟩ skipped s).1 = met
      at hmeet ⊢
    generalize meet ⟨m, h, f'⟩ (trail ⟨m, h, f'⟩ taken t).1 (trail ⟨m, h, f'⟩ skipped t).1 = met'
      at hmeet ⊢
    cases hmeet with
    | none => exact .none
    | some hrel => exact ihRest hrel
  | loop place body rest ihBody ihRest =>
    exact ihRest (revisit_unboundIn f f' (fun s t hs => ihBody hs) h.maxLoopIterations hs)

/-! ### Events -/

def mergesAt (w : Walk) : Event → Bool
  | .run position (.call callee args _) s =>
    Call.mergesFor w.heuristics
      ⟨w.method.name, ⟨w.method.id, position⟩, callee, args.map s.read⟩ (w.summaries callee) s
  | .run _ _ _ => false
  | .leave _ _ => false

/-- Whether the walk of the method meets a call that merges fields of what it hands back. -/
def merges (w : Walk) : Bool := w.method.body.any fun body => (w.events body).any w.mergesAt

/-- Every instruction that is run in `es` is run in `es'`, from a bigger state. -/
def Covered (es es' : List Event) : Prop :=
  ∀ position instruction s, .run position instruction s ∈ es →
    ∃ t, .run position instruction t ∈ es' ∧ Within s t

theorem covered_nil (es : List Event) : Covered [] es := fun _ _ _ h => by cases h

theorem Covered.cons {es es' : List Event} (hs : Within s t) (position : Nat)
    (instruction : Instruction) (h : Covered es es') :
    Covered (.run position instruction s :: es) (.run position instruction t :: es') := by
  intro position' instruction' s' hmem
  rcases List.mem_cons.1 hmem with heq | hmem
  · cases heq
    exact ⟨t, List.mem_cons_self, hs⟩
  · obtain ⟨t', ht', hwithin⟩ := h position' instruction' s' hmem
    exact ⟨t', List.mem_cons_of_mem _ ht', hwithin⟩

theorem Covered.append {es es' later later' : List Event} (h : Covered es es')
    (h' : Covered later later') : Covered (es ++ later) (es' ++ later') := by
  intro position instruction s hmem
  rcases List.mem_append.1 hmem with hmem | hmem
  · obtain ⟨t, ht, hwithin⟩ := h position instruction s hmem
    exact ⟨t, List.mem_append_left later' ht, hwithin⟩
  · obtain ⟨t, ht, hwithin⟩ := h' position instruction s hmem
    exact ⟨t, List.mem_append_right es' ht, hwithin⟩

theorem Covered.append_left {es later es' : List Event} (h : Covered es es')
    (h' : Covered later es') : Covered (es ++ later) es' := fun position instruction s hmem =>
  (List.mem_append.1 hmem).elim (h position instruction s) (h' position instruction s)

theorem Covered.append_right {es es' : List Event} (h : Covered es es') (later : List Event) :
    Covered es (es' ++ later) := fun position instruction s hmem => by
  obtain ⟨t, ht, hwithin⟩ := h position instruction s hmem
  exact ⟨t, List.mem_append_left later ht, hwithin⟩

/-! ### Walks -/

theorem call_within (hs : Within s t) (caller : String) (site : CallSite) (callee : String)
    (args : List String) :
    Call.Within ⟨caller, site, callee, args.map s.read⟩ ⟨caller, site, callee, args.map t.read⟩ where
  site := rfl
  callee := rfl
  arguments i L hL := by
    rw [List.getElem?_map] at hL ⊢
    obtain ⟨arg, harg, rfl⟩ := Option.map_eq_some_iff.1 hL
    exact ⟨t.read arg, by rw [harg]; rfl, hs.read arg⟩

/-- An instruction leaves a bigger state if more is known about callees. -/
theorem apply_within (hle : ∀ name, (f name).le (f' name) = true) (hs : Within s t)
    {position : Nat} {instruction : Instruction}
    (hmerges : mergesAt ⟨m, h, f⟩ (.run position instruction s) = false) :
    Within (apply ⟨m, h, f⟩ position instruction s).1
      (apply ⟨m, h, f'⟩ position instruction t).1 := by
  cases instruction with
  | fresh dest => exact hs.bind (.refl _) dest
  | move dest src => exact hs.bind (hs.read src) dest
  | fieldRead dest base field => exact hs.bind ((hs.read base).map _) dest
  | fieldWrite base field src =>
    exact hs.writeAll (hs.read base) (State.sub_readAll hs.sub (hs.read src).subset) true
  | call callee args result =>
    exact Call.run_within (call_within hs _ _ _ args) hs (hle callee) hmerges result

/-- No call among the events merges what it hands back. -/
def Spread (w : Walk) (es : List Event) : Prop := ∀ e ∈ es, w.mergesAt e = false

theorem spread_append {w : Walk} {es later : List Event} :
    w.Spread (es ++ later) ↔ w.Spread es ∧ w.Spread later := List.forall_mem_append

/-- The first pass is part of what a loop meets. -/
theorem Spread.pass {w : Walk} {pass : State → Option State × List Event} {passes : Nat}
    (h : w.Spread (w.revisit pass (passes + 1) s).2) : w.Spread (pass s).2 := by
  rcases hp : pass s with ⟨_ | stop, es⟩
  · rwa [revisit_of_none hp] at h
  · by_cases hle : stop.le s w.heuristics.maxFieldDepth = true
    · rwa [revisit_of_le hp hle] at h
    · rw [revisit_of_not_le hp hle] at h
      exact (spread_append.1 h).1

/-- If the bigger walk has found its head again, then the smaller one stays below that head. -/
theorem revisit_below_head {w : Walk} {pass : State → Option State × List Event} {stop' : State}
    {es' : List Event}
    (hpass : ∀ s, Within s t → w.Spread (pass s).2 →
      Option.Rel Within (pass s).1 (some stop') ∧ Covered (pass s).2 es')
    (hstop' : Below stop' t) (passes : Nat) (hs : Within s t)
    (hspread : w.Spread (w.revisit pass passes s).2) :
    Below (w.revisit pass passes s).1 t ∧ Covered (w.revisit pass passes s).2 es' := by
  induction passes generalizing s with
  | zero => exact ⟨hs.below, covered_nil es'⟩
  | succ passes ih =>
    obtain ⟨hstops, hcovered⟩ := hpass s hs hspread.pass
    rcases hp : pass s with ⟨stop, es⟩
    rw [hp] at hstops hcovered
    cases hstops with
    | @some stop _ hstop =>
      have hjoin : Within (s.join stop w.heuristics.maxFieldDepth) t :=
        hs.join_left (hstop.below.trans hstop')
      by_cases hle : stop.le s w.heuristics.maxFieldDepth = true
      · rw [revisit_of_le hp hle]
        exact ⟨hjoin.below, hcovered⟩
      · rw [revisit_of_not_le hp hle] at hspread ⊢
        obtain ⟨hbelow, hlater⟩ := ih hjoin (spread_append.1 hspread).2
        exact ⟨hbelow, hcovered.append_left hlater⟩

/-- A loop of the bigger walk covers that of the smaller one if their bodies do. -/
theorem revisit_below (f f' : String → Callee) {pass pass' : State → Option State × List Event}
    (hpass : ∀ s t, Within s t → Spread ⟨m, h, f⟩ (pass s).2 →
      Option.Rel Within (pass s).1 (pass' t).1 ∧ Covered (pass s).2 (pass' t).2)
    (passes : Nat) (hs : Within s t)
    (hspread : Spread ⟨m, h, f⟩ (revisit ⟨m, h, f⟩ pass passes s).2) :
    Below (revisit ⟨m, h, f⟩ pass passes s).1 (revisit ⟨m, h, f'⟩ pass' passes t).1 ∧
      Covered (revisit ⟨m, h, f⟩ pass passes s).2 (revisit ⟨m, h, f'⟩ pass' passes t).2 := by
  induction passes generalizing s t with
  | zero => exact ⟨hs.below, covered_nil _⟩
  | succ passes ih =>
    obtain ⟨hstops, hcovered⟩ := hpass s t hs hspread.pass
    rcases hp : pass s with ⟨stop, es⟩
    rcases hp' : pass' t with ⟨stop', es'⟩
    rw [hp, hp'] at hstops hcovered
    cases hstops with
    | none =>
      rw [revisit_of_none hp, revisit_of_none hp']
      exact ⟨hs.below, hcovered⟩
    | @some stop stop' hstop =>
      have hjoin : Within (s.join stop h.maxFieldDepth) (t.join stop' h.maxFieldDepth) :=
        hs.join hstop
      by_cases hle' : stop'.le t h.maxFieldDepth = true
      · -- the last pass of the bigger walk covers all passes that the smaller one still makes
        rw [revisit_of_le hp' hle']
        obtain ⟨hbelow, hcovered⟩ := revisit_below_head
          (fun s hs hspread => by simpa only [hp'] using hpass s t hs hspread) (Below.of_le hle')
          (passes + 1) hs hspread
        exact ⟨hbelow.trans (State.below_join t stop' _), hcovered⟩
      · rw [revisit_of_not_le hp' hle']
        by_cases hle : stop.le s h.maxFieldDepth = true
        · rw [revisit_of_le hp hle]
          exact ⟨hjoin.below.trans (below_revisit _ pass' passes _), hcovered.append_right _⟩
        · rw [revisit_of_not_le hp hle] at hspread ⊢
          obtain ⟨hbelow, hlater⟩ := ih hjoin (spread_append.1 hspread).2
          exact ⟨hbelow, hcovered.append hlater⟩

/-- A walk with more known about callees covers one that merges nothing, and leaves the body in a
bigger state. -/
theorem trail_within (hle : ∀ name, (f name).le (f' name) = true) (body : Body)
    (hs : Within s t) (hspread : Spread ⟨m, h, f⟩ (trail ⟨m, h, f⟩ body s).2) :
    Option.Rel Within (trail ⟨m, h, f⟩ body s).1 (trail ⟨m, h, f'⟩ body t).1 ∧
      Covered (trail ⟨m, h, f⟩ body s).2 (trail ⟨m, h, f'⟩ body t).2 := by
  induction body generalizing s t with
  | done => exact ⟨.some hs, covered_nil _⟩
  | run place instruction rest ih =>
    obtain ⟨hmerges, hrest⟩ := List.forall_mem_cons.1 hspread
    obtain ⟨hstop, hcovered⟩ := ih (apply_within hle hs hmerges) hrest
    exact ⟨hstop, hcovered.cons hs place.position instruction⟩
  | leave place value rest =>
    refine ⟨.none, fun position instruction s hmem => ?_⟩
    cases List.mem_singleton.1 hmem
  | branch place taken skipped rest ihTaken ihSkipped ihRest =>
    simp only [trail] at hspread ⊢
    have harms : Spread ⟨m, h, f⟩ (trail ⟨m, h, f⟩ taken s).2 ∧
        Spread ⟨m, h, f⟩ (trail ⟨m, h, f⟩ skipped s).2 := by
      split at hspread
      · exact spread_append.1 (spread_append.1 hspread).1
      · exact spread_append.1 hspread
    obtain ⟨htaken, hcoveredTaken⟩ := ihTaken hs harms.1
    obtain ⟨hskipped, hcoveredSkipped⟩ := ihSkipped hs harms.2
    have hmeet := meet_rel (v := ⟨m, h, f⟩) (w := ⟨m, h, f'⟩)
      (fun _ _ _ _ hs ht => hs.join ht) htaken hskipped
    generalize meet ⟨m, h, f⟩ (trail ⟨m, h, f⟩ taken s).1 (trail ⟨m, h, f⟩ skipped s).1 = met
      at hmeet hspread ⊢
    generalize meet ⟨m, h, f'⟩ (trail ⟨m, h, f'⟩ taken t).1 (trail ⟨m, h, f'⟩ skipped t).1 = met'
      at hmeet ⊢
    cases hmeet with
    | none => exact ⟨.none, hcoveredTaken.append hcoveredSkipped⟩
    | some hrel =>
      obtain ⟨hstop, hlater⟩ := ihRest hrel (spread_append.1 hspread).2
      exact ⟨hstop, (hcoveredTaken.append hcoveredSkipped).append hlater⟩
  | loop place body rest ihBody ihRest =>
    obtain ⟨hloop, hrest⟩ := spread_append.1 hspread
    obtain ⟨hbelow, hcovered⟩ :=
      revisit_below f f' (fun s t hs hspread => ihBody hs hspread) h.maxLoopIterations hs hloop
    have hunbound := revisit_unboundIn (m := m) (h := h) f f'
      (fun s t hs => trail_unboundIn (m := m) (h := h) f f' body hs) h.maxLoopIterations hs.unboundIn
    obtain ⟨hstop, hlater⟩ := ihRest (hbelow.within hunbound) hrest
    exact ⟨hstop, hcovered.append hlater⟩

/-- The events of a method whose calls merge nothing are covered if more is known about callees. -/
theorem events_covered (hle : ∀ name, (f name).le (f' name) = true) {body : Body}
    (hspread : Spread ⟨m, h, f⟩ (events ⟨m, h, f⟩ body)) :
    Covered (events ⟨m, h, f⟩ body) (events ⟨m, h, f'⟩ body) := by
  have hleave (s : State) : Covered [.leave none s] [] := fun _ _ _ hmem => by
    cases List.mem_singleton.1 hmem
  have htrail : Spread ⟨m, h, f⟩ (trail ⟨m, h, f⟩ body (entry ⟨m, h, f⟩)).2 := by
    unfold events at hspread
    split at hspread
    · next heq =>
      rw [heq]
      exact (spread_append.1 hspread).1
    · next heq => rwa [heq]
  obtain ⟨hstop, hcovered⟩ := trail_within hle body (.refl _) htrail
  have hentry : entry ⟨m, h, f'⟩ = entry ⟨m, h, f⟩ := rfl
  unfold events
  rw [hentry]
  generalize trail ⟨m, h, f⟩ body (entry ⟨m, h, f⟩) = walked at hstop hcovered
  generalize trail ⟨m, h, f'⟩ body (entry ⟨m, h, f⟩) = walked' at hstop hcovered
  obtain ⟨stop, es⟩ := walked
  obtain ⟨stop', es'⟩ := walked'
  cases hstop with
  | none => exact hcovered
  | some _ => exact (hcovered.append_right _).append_left ((hleave _).append_right _)

end Walk

/-! ### Observations -/

namespace MethodAnalysis

variable {m : Method} {h : Heuristics} {f f' : String → Callee}

/-- The sources of the observation at a sink are those observed there at some event. -/
theorem observed_iff {w : Walk} {k : Observation.Key} {source : Frame} :
    (∃ o ∈ (run w).observations, o.key = k ∧ o.sources.Has source) ↔
      ∃ body, w.method.body = some body ∧
        ∃ e ∈ w.events body, ∃ o ∈ w.observedAt e, o.key = k ∧ o.sources.Has source := by
  unfold run
  cases w.method.body with
  | none => simp
  | some body =>
    have hkeyed : OrdMap.Keyed Observation.key (w.gather body).observations := by
      rw [Walk.observations_gather]
      exact Observations.keyed_addAll _
    have hvalues : (∃ o ∈ (w.gather body).observations.values, o.key = k ∧ o.sources.Has source) ↔
        ∃ o, (w.gather body).observations.get? k = some o ∧ o.sources.Has source := by
      constructor
      · rintro ⟨o, ho, rfl, hsource⟩
        obtain ⟨k, hk⟩ := OrdMap.mem_values.1 ho
        exact ⟨o, hkeyed k o hk ▸ hk, hsource⟩
      · rintro ⟨o, ho, hsource⟩
        exact ⟨o, OrdMap.mem_values.2 ⟨k, ho⟩, hkeyed k o ho, hsource⟩
    have hnone : ¬ ∃ o, (∅ : Observations).get? k = some o ∧ o.sources.Has source := by
      rintro ⟨o, ho, -⟩
      cases ho
    rw [hvalues, Walk.observations_gather,
      Observations.exists_addAll fun o o' => FrameSet.has_join, or_iff_right hnone]
    simp only [List.mem_flatMap, Option.some.injEq, exists_eq_left']
    exact ⟨fun ⟨o, ⟨e, he, ho⟩, h⟩ => ⟨e, he, o, ho, h⟩, fun ⟨e, he, o, ho, h⟩ => ⟨o, ⟨e, he, ho⟩, h⟩⟩

/-- More known about callees never removes a source from an observation, unless a call merges fields
of what it hands back. -/
theorem sources_mono (hle : ∀ name, (f name).le (f' name) = true)
    (hmerges : Walk.merges ⟨m, h, f⟩ = false) {o : Observation}
    (ho : o ∈ (run ⟨m, h, f⟩).observations) {source : Frame} (hsource : o.sources.Has source) :
    ∃ o' ∈ (run ⟨m, h, f'⟩).observations, o'.key = o.key ∧ o'.sources.Has source := by
  obtain ⟨body, hbody, e, he, own, hown, hkey, hmem⟩ := observed_iff.1 ⟨o, ho, rfl, hsource⟩
  refine observed_iff.2 ⟨body, hbody, ?_⟩
  have hspread : Walk.Spread ⟨m, h, f⟩ (Walk.events ⟨m, h, f⟩ body) := by
    unfold Walk.merges at hmerges
    rw [hbody] at hmerges
    exact fun e he => Bool.eq_false_iff.2 (List.any_eq_false.1 hmerges e he)
  cases e with
  | leave value s => cases hown
  | run position instruction s =>
    obtain ⟨t, ht, hwithin⟩ := Walk.events_covered hle hspread position instruction s he
    cases instruction with
    | call callee args result =>
      obtain ⟨o', ho', hkey', hsource'⟩ :=
        Call.observed_mono (Walk.call_within hwithin _ _ _ args) hwithin (hle callee) hown hmem
      exact ⟨_, ht, o', ho', hkey'.trans hkey, hsource'⟩
    | fresh dest => cases hown
    | move dest src => cases hown
    | fieldRead dest base field => cases hown
    | fieldWrite base field src => cases hown

def showing (field : String) : Method :=
  ⟨⟨0⟩, "main", [], some
    (.run ⟨0, none⟩ (.call "make" [] (some "x"))
      (.run ⟨1, none⟩ (.fieldRead "y" "x" (.field field))
        (.run ⟨2, none⟩ (.call "show" ["y"] none) .done))), none⟩

def making (fields : List Path) (name : String) : Callee :=
  if name = "make" then
    .modeled { (∅ : Model) with
      generations := Model.ofFrames (fields.map fun path => (⟨.result, path⟩, .ofKind ⟨0⟩, ∅)) }
  else if name = "show" then .modeled ((∅ : Model).addSink (.argument 0) (.ofKind ⟨1⟩) ∅)
  else .obscure

theorem making_le {fields fields' : List Path}
    (h : (making fields "make").le (making fields' "make") = true) (name : String) :
    (making fields name).le (making fields' name) = true := by
  by_cases hmake : name = "make"
  · exact hmake ▸ h
  · unfold making
    rw [if_neg hmake, if_neg hmake]
    split
    · decide
    · rfl

theorem sources_mono_twoFields :
    ∃ o ∈ (run ⟨showing "a", {}, making [[.field "a"]]⟩).observations,
      o.sources.Has (.ofKind ⟨0⟩) ∧
        ∃ o' ∈ (run ⟨showing "a", {}, making [[.field "a"], [.field "b"]]⟩).observations,
          o'.key = o.key ∧ o'.sources.Has (.ofKind ⟨0⟩) := by
  have hmem : (run ⟨showing "a", {}, making [[.field "a"]]⟩).observations.any
      (fun o => (o.sources.get? (.ofKind ⟨0⟩)).isSome) = true := by decide
  obtain ⟨o, ho, hsource⟩ := List.any_eq_true.1 hmem
  have hhas : o.sources.Has (.ofKind ⟨0⟩) := Option.isSome_iff_exists.1 hsource
  exact ⟨o, ho, hhas, sources_mono (making_le (by decide)) (by decide) ho hhas⟩

/-- Two fields and those below a third one, `f`. With five below it, `f` is merged first, and what is
left has three leaves and is not crowded any more. -/
def fieldsUnder (names : List String) : List Path :=
  [.field "g"] :: [.field "h"] :: names.map fun name => [.field "f", .field name]

/-- More known about a callee can remove a source, where less made a call merge fields. -/
theorem sources_lost :
    ¬ ∀ (m : Method) (h : Heuristics) (f f' : String → Callee),
      (∀ name, (f name).le (f' name) = true) →
        ∀ o ∈ (run ⟨m, h, f⟩).observations, ∀ source, o.sources.Has source →
          ∃ o' ∈ (run ⟨m, h, f'⟩).observations, o'.key = o.key ∧ o'.sources.Has source := by
  intro hmono
  let few := fieldsUnder ["a", "b", "c"]
  let more := fieldsUnder ["a", "b", "c", "d", "e"]
  have hmem : (run ⟨showing "other", {}, making few⟩).observations.any
      (fun o => (o.sources.get? (.ofKind ⟨0⟩)).isSome) = true := by decide
  have hnone : (run ⟨showing "other", {}, making more⟩).observations = [] := by decide
  obtain ⟨o, ho, hsource⟩ := List.any_eq_true.1 hmem
  obtain ⟨o', ho', -⟩ := hmono (showing "other") {} (making few) (making more)
    (making_le (by decide)) o ho (.ofKind ⟨0⟩) (Option.isSome_iff_exists.1 hsource)
  rw [hnone] at ho'
  cases ho'

end MethodAnalysis

end TaintFlow
