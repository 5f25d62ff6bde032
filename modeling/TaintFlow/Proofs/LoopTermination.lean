import TaintFlow.Proofs.StockedStates

/-!
The passes over the body of a loop end by themselves. Every pass leaves a head with all that was in
the one before it, one that adds something leaves a head that no earlier pass left, and all heads
are made of one stock. So some pass adds nothing, and a loop with a higher limit on the passes is not
cut short (`Walk.loop_ends_without_limit`).
-/

namespace TaintFlow

/-! ### The order of states -/

namespace State

variable {s t u : State} {depth : Nat}

theorem le_refl (s : State) (depth : Nat) : s.le s depth = true :=
  le_iff.2 ⟨fun _ _ hl => hl, fun _ tree htree => ⟨tree, htree, tree.le_refl depth⟩⟩

theorem le_trans (h : s.le t depth = true) (h' : t.le u depth = true) : s.le u depth = true := by
  obtain ⟨hread, htaint⟩ := le_iff.1 h
  obtain ⟨hread', htaint'⟩ := le_iff.1 h'
  refine le_iff.2 ⟨fun r l hl => hread' r l (hread r l hl), fun o tree htree => ?_⟩
  obtain ⟨tree', htree', hle⟩ := htaint o tree htree
  obtain ⟨tree'', htree'', hle'⟩ := htaint' o tree' htree'
  exact ⟨tree'', htree'', TaintTree.le_trans hle hle'⟩

theorem le_join_left (s t : State) (depth : Nat) : s.le (s.join t depth) depth = true := by
  refine le_iff.2 ⟨fun r l hl => mem_read_join.2 (.inl hl), fun o tree htree => ?_⟩
  rw [tree?_join, htree]
  cases t.tree? o with
  | none => exact ⟨tree, rfl, tree.le_refl depth⟩
  | some other => exact ⟨tree.join other depth, rfl, tree.le_join_left other depth⟩

theorem le_join_right (s t : State) (depth : Nat) : t.le (s.join t depth) depth = true := by
  refine le_iff.2 ⟨fun r l hl => mem_read_join.2 (.inr hl), fun o tree htree => ?_⟩
  rw [tree?_join, htree]
  cases s.tree? o with
  | none => exact ⟨tree, rfl, tree.le_refl depth⟩
  | some own => exact ⟨own.join tree depth, rfl, own.le_join_right tree depth⟩

end State

namespace Walk

/-! ### Passes without a limit -/

section

variable (w : Walk) (body : Body)

def passOnce (head : State) : State :=
  (w.walk body head ∅).1.elim head (head.join · w.heuristics.maxFieldDepth)

def afterPasses (n : Nat) (head : State) : State := (w.passOnce body)^[n] head

def Grows (head : State) : Prop :=
  ∃ stop ∈ (w.walk body head ∅).1, stop.le head w.heuristics.maxFieldDepth = false

instance (head : State) : Decidable (w.Grows body head) :=
  inferInstanceAs (Decidable (∃ _ ∈ _, _))

end

variable {w : Walk} {body : Body} {s head : State}

/-- The end of a pass does not depend on what was gathered before it. -/
theorem fst_walk (w : Walk) (body : Body) (s : State) (g : Gathered) :
    (w.walk body s g).1 = (w.walk body s ∅).1 := by rw [walk_eq, walk_eq]

theorem passOnce_of_some {stop : State} (h : (w.walk body head ∅).1 = some stop) :
    w.passOnce body head = head.join stop w.heuristics.maxFieldDepth := by
  rw [passOnce, h]
  rfl

theorem le_passOnce (w : Walk) (body : Body) (head : State) :
    head.le (w.passOnce body head) w.heuristics.maxFieldDepth = true := by
  unfold passOnce
  cases (w.walk body head ∅).1 with
  | none => exact head.le_refl _
  | some stop => exact head.le_join_left stop _

/-- A pass that grows leaves more than there was in the head. -/
theorem Grows.not_le (h : w.Grows body head) :
    (w.passOnce body head).le head w.heuristics.maxFieldDepth = false := by
  obtain ⟨stop, hstop, hgrown⟩ := h
  refine Bool.eq_false_iff.2 fun hle => ?_
  rw [passOnce_of_some hstop] at hle
  have hnothing := State.le_trans (head.le_join_right stop _) hle
  rw [hgrown] at hnothing
  cases hnothing

theorem afterPasses_succ (n : Nat) :
    w.afterPasses body (n + 1) s = w.passOnce body (w.afterPasses body n s) :=
  Function.iterate_succ_apply' _ n s

theorem afterPasses_le (w : Walk) (body : Body) (s : State) {i j : Nat} (h : i ≤ j) :
    (w.afterPasses body i s).le (w.afterPasses body j s) w.heuristics.maxFieldDepth = true := by
  induction j, h using Nat.le_induction with
  | base => exact State.le_refl _ _
  | succ j _ ih =>
    rw [afterPasses_succ]
    exact State.le_trans ih (le_passOnce w body _)

/-- A pass that grows leaves a head that no pass before it left. -/
theorem afterPasses_ne {i j : Nat} (h : w.Grows body (w.afterPasses body i s)) (hlt : i < j) :
    w.afterPasses body i s ≠ w.afterPasses body j s := by
  intro heq
  -- pass `i` left more in the head, and no later pass takes it away
  have hle := afterPasses_le w body s (Nat.succ_le_of_lt hlt)
  rw [afterPasses_succ, ← heq, h.not_le] at hle
  cases hle

theorem makes_afterPasses {W : Stock} (hkeeps : w.Keeps body fun s => W.Makes s) (hs : W.Makes s)
    (n : Nat) : W.Makes (w.afterPasses body n s) := by
  induction n with
  | zero => exact hs
  | succ n ih =>
    rw [afterPasses_succ, passOnce, walk_eq]
    have hstop := (keeps_reached body hkeeps ih).2.1
    cases h : (w.trail body (w.afterPasses body n s)).1 with
    | none => exact ih
    | some stop => exact hkeeps.join _ stop ih (hstop stop h)

/-- Some pass over the body adds nothing. -/
theorem exists_pass_without_growth (w : Walk) (body : Body) (s : State) :
    ∃ n, ¬ w.Grows body (w.afterPasses body n s) := by
  obtain ⟨W, ⟨hfits, hregisters⟩, hs⟩ :=
    ((Stock.eventually_walk w body).and (Stocked.eventually s)).exists
  exact Stocked.exists_not W (makes_afterPasses (Stock.keeps hfits hregisters) hs)
    fun _ _ => afterPasses_ne

/-- A loop comes to the head after the first pass that adds nothing, if so many passes may be
made. -/
theorem iterate_of_passes {n limit : Nat}
    (hgrown : ∀ i < n, w.Grows body (w.afterPasses body i s))
    (hlast : ¬ w.Grows body (w.afterPasses body n s)) (hlimit : n < limit) (g : Gathered) :
    (w.iterate (w.walk body) limit s g).1 = w.afterPasses body (n + 1) s := by
  induction n generalizing s limit g with
  | zero =>
    obtain ⟨limit, rfl⟩ := Nat.exists_eq_succ_of_ne_zero (Nat.ne_of_gt hlimit)
    show _ = w.passOnce body s
    have hwalk := fst_walk w body s g
    rw [iterate]
    rcases hp : w.walk body s g with ⟨_ | stop, g'⟩ <;> rw [hp] at hwalk
    · rw [passOnce, ← hwalk]
      rfl
    · have hle : stop.le s w.heuristics.maxFieldDepth = true :=
        Bool.not_eq_false _ ▸ fun hnot => hlast ⟨stop, hwalk.symm, hnot⟩
      rw [passOnce_of_some hwalk.symm]
      simp only [hle, if_true]
  | succ n ih =>
    obtain ⟨limit, rfl⟩ := Nat.exists_eq_succ_of_ne_zero (Nat.ne_zero_of_lt hlimit)
    obtain ⟨stop, hstop, hnot⟩ : w.Grows body s := hgrown 0 n.succ_pos
    have hwalk := (fst_walk w body s g).trans hstop
    rw [iterate]
    rcases hp : w.walk body s g with ⟨_ | stop', g'⟩ <;> rw [hp] at hwalk
    · cases hwalk
    · cases hwalk
      simp only [hnot, Bool.false_eq_true, if_false]
      rw [← passOnce_of_some hstop]
      exact ih (fun i hi => hgrown (i + 1) (Nat.succ_lt_succ hi)) hlast
        (Nat.lt_of_succ_lt_succ hlimit) g'

/-- The head that a loop comes to has all that the state before it had. -/
theorem le_iterate (w : Walk) (pass : State → Gathered → Option State × Gathered) (limit : Nat)
    (head : State) (g : Gathered) :
    head.le (w.iterate pass limit head g).1 w.heuristics.maxFieldDepth = true := by
  induction limit generalizing head g with
  | zero => exact head.le_refl _
  | succ limit ih =>
    rw [iterate]
    rcases pass head g with ⟨_ | stop, g'⟩
    · exact head.le_refl _
    · simp only
      split
      · exact head.le_join_left stop _
      · exact State.le_trans (head.le_join_left stop _) (ih _ g')

/-- Without a limit on their number the passes over the body of a loop come to a pass that adds
nothing, from whatever state they start; a loop that may make so many ends there. A loop that is not
cut short ends in a head that one more pass leaves as it is, with all that was there before. -/
theorem loop_ends_without_limit (w : Walk) (body : Body) (s : State) :
    (∃ n, (∀ i < n, w.Grows body (w.afterPasses body i s)) ∧
      (∀ stop ∈ (w.walk body (w.afterPasses body n s) ∅).1,
        stop.le (w.afterPasses body n s) w.heuristics.maxFieldDepth = true) ∧
      ∀ limit > n, ∀ g, (w.iterate (w.walk body) limit s g).1 = w.afterPasses body (n + 1) s) ∧
    (¬ (Loop.mk body s).CutShort w → (Loop.mk body s).Stable w ∧
      s.le ((Loop.mk body s).head w) w.heuristics.maxFieldDepth = true) := by
  refine ⟨?_, fun hcut => ⟨?_, le_iterate w _ _ s ∅⟩⟩
  · obtain ⟨n, hlast, hfirst⟩ := Nat.findX (exists_pass_without_growth w body s)
    have hgrown : ∀ i < n, w.Grows body (w.afterPasses body i s) :=
      fun i hi => not_not.1 (hfirst i hi)
    refine ⟨n, hgrown, fun stop hstop => ?_, fun limit => iterate_of_passes hgrown hlast⟩
    exact Bool.not_eq_false _ ▸ fun hnot => hlast ⟨stop, hstop, hnot⟩
  · exact (Loop.stable_or_cutShort w ⟨body, s⟩).resolve_right hcut

/-- A body that hands on what two registers hold, so that it takes two passes to get through. -/
def handingOn : Body :=
  .run ⟨0, none⟩ (.move "third" "second") (.run ⟨1, none⟩ (.move "second" "first") .done)

theorem loop_ends_handingOn :
    let w : Walk := ⟨⟨⟨0⟩, "handingOn", ["first"], none, none⟩, {}, fun _ => .obscure⟩
    let l : Loop := ⟨handingOn, w.entry⟩
    ¬ l.CutShort w ∧ w.Grows handingOn (w.afterPasses handingOn 1 w.entry) ∧ l.Stable w ∧
      w.entry.le (l.head w) w.heuristics.maxFieldDepth = true := by
  intro w l
  have hcut : ¬ l.CutShort w := by decide
  have hgrows : w.Grows handingOn (w.afterPasses handingOn 1 w.entry) := by decide
  exact ⟨hcut, hgrows, (loop_ends_without_limit w handingOn w.entry).2 hcut⟩

end Walk

end TaintFlow
