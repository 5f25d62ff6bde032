import TaintFlow.Proofs.Entry
import TaintFlow.Proofs.LoopHeads
import TaintFlow.Proofs.SeenSinks
import TaintFlow.Proofs.StaleCopies
import TaintFlow.Proofs.Unrolling

/-!
A loop covers its unrollings. Every loop that is not cut short has a last head, from which a pass
over the body comes back below it; that one pass covers all copies of the body in an unrolling
(`Walk.covers_trail`), as long as the copies read nothing that is stale. `Walk.markedTrail` walks
the unrolled body with its stale copies, and `Walk.StaysCurrent` says that it never reads one.
Without that a loop can miss what its unrolling shows: an object of one iteration that is still held
in the next one is taken for the object that the next one makes.
-/

namespace TaintFlow

open Node (Sub)

namespace Walk

/-! ### Walks with stale copies -/

section

variable (w : Walk) (φ : Nat → Nat)

def meetMarked (taken skipped : Option Marked) : Option Marked :=
  match taken, skipped with
  | some u, some v => some (u.join v w.heuristics.maxFieldDepth)
  | some u, none => some u
  | none, v => v

def revisitMarked (pass : Marked → Option Marked × List (Event × List Origin)) :
    Nat → Marked → Marked × List (Event × List Origin)
  | 0, head => (head, [])
  | passes + 1, head =>
    let depth := w.heuristics.maxFieldDepth
    match pass head with
    | (none, es) => (head, es)
    | (some stop, es) =>
      if stop.state.le head.state depth then (head.join stop depth, es)
      else
        let (last, later) := revisitMarked pass passes (head.join stop depth)
        (last, es ++ later)

/-- The state after an unrolled body, and the events in it, each with the origins that are stale at
it. -/
def markedTrail : Body → Marked → Option Marked × List (Event × List Origin)
  | .done, u => (some u, [])
  | .run place instruction rest, u =>
    let (stop, es) := markedTrail rest (w.mark φ place.position instruction u)
    (stop, (.run place.position instruction u.state, u.stale) :: es)
  | .leave _ value _, u => (none, [(.leave value u.state, u.stale)])
  | .branch _ taken skipped rest, u =>
    let (taken, es) := markedTrail taken u
    let (skipped, es') := markedTrail skipped u
    match w.meetMarked taken skipped with
    | some u =>
      let (stop, later) := markedTrail rest u
      (stop, es ++ es' ++ later)
    | none => (none, es ++ es')
  | .loop _ body rest, u =>
    let (head, es) := w.revisitMarked (markedTrail body) w.heuristics.maxLoopIterations u
    let (stop, later) := markedTrail rest head
    (stop, es ++ later)

def CurrentAt : Event × List Origin → Prop
  | (.run position instruction s, stale) => w.Current position instruction ⟨s, stale⟩
  | (.leave _ _, _) => True

instance : DecidablePred w.CurrentAt
  | (.run position instruction s, stale) =>
    inferInstanceAs (Decidable (w.Current position instruction ⟨s, stale⟩))
  | (.leave _ _, _) => .isTrue trivial

/-- The walk of a body whose loops were unrolled, once it is numbered again, reads no stale copy. -/
def StaysCurrent (unrolled : Body) : Prop :=
  ∀ e ∈ (w.markedTrail unrolled.former (unrolled.number 0).1 ⟨w.entry, []⟩).2, w.CurrentAt e

instance (unrolled : Body) : Decidable (w.StaysCurrent unrolled) :=
  inferInstanceAs (Decidable (∀ _ ∈ _, _))

end

variable {w : Walk} {φ : Nat → Nat} {u : Marked} {l : State}

theorem meet_forget (taken skipped : Option Marked) :
    w.meet (taken.map Marked.state) (skipped.map Marked.state) =
      (w.meetMarked taken skipped).map Marked.state := by
  cases taken <;> cases skipped <;> rfl

theorem revisit_forget {pass : State → Option State × List Event}
    {marked : Marked → Option Marked × List (Event × List Origin)}
    (h : ∀ u, pass u.state = ((marked u).1.map Marked.state, (marked u).2.map Prod.fst))
    (passes : Nat) (head : Marked) :
    w.revisit pass passes head.state =
      ((w.revisitMarked marked passes head).1.state,
        (w.revisitMarked marked passes head).2.map Prod.fst) := by
  induction passes generalizing head with
  | zero => rfl
  | succ passes ih =>
    rw [revisit, revisitMarked, h]
    rcases marked head with ⟨_ | stop, es⟩
    · rfl
    · by_cases hle : stop.state.le head.state w.heuristics.maxFieldDepth = true
      · simp only [Option.map_some, hle, if_true]
        rfl
      · have hnext := ih (head.join stop w.heuristics.maxFieldDepth)
        simp only [Option.map_some, hle, Bool.false_eq_true, if_false, List.map_append]
        rw [show (head.state.join stop.state w.heuristics.maxFieldDepth) =
          (head.join stop w.heuristics.maxFieldDepth).state from rfl, hnext]

/-- Without its marks the walk is the walk of the body. -/
theorem trail_forget (body : Body) (u : Marked) :
    w.trail body u.state =
      ((w.markedTrail φ body u).1.map Marked.state, (w.markedTrail φ body u).2.map Prod.fst) := by
  induction body generalizing u with
  | done => rfl
  | run place instruction rest ih =>
    have hrest := ih (w.mark φ place.position instruction u)
    rw [trail, markedTrail]
    simp only [List.map_cons]
    rw [show (w.apply place.position instruction u.state).1 =
      (w.mark φ place.position instruction u).state from rfl, hrest]
  | leave place value rest => rfl
  | branch place taken skipped rest ihTaken ihSkipped ihRest =>
    rw [trail, markedTrail]
    simp only [ihTaken u, ihSkipped u, meet_forget]
    cases w.meetMarked (w.markedTrail φ taken u).1 (w.markedTrail φ skipped u).1 with
    | none => simp
    | some v => simp [ihRest v]
  | loop place body rest ihBody ihRest =>
    have hhead := revisit_forget (w := w) ihBody w.heuristics.maxLoopIterations u
    rw [trail, markedTrail]
    simp only [hhead, ihRest, List.map_append]

/-- A walk goes through two blocks one after the other. -/
theorem markedTrail_append (b c : Body) (u : Marked) :
    w.markedTrail φ (b.append c) u =
      match w.markedTrail φ b u with
      | (none, es) => (none, es)
      | (some v, es) => ((w.markedTrail φ c v).1, es ++ (w.markedTrail φ c v).2) := by
  induction b generalizing u with
  | done => rfl
  | run place instruction rest ih =>
    rw [Block.append, markedTrail, markedTrail, ih]
    rcases w.markedTrail φ rest (w.mark φ place.position instruction u) with ⟨_ | v, es⟩ <;> rfl
  | leave place value rest => rfl
  | branch place taken skipped rest _ _ ih =>
    simp only [Block.append, markedTrail, ih]
    cases w.meetMarked (w.markedTrail φ taken u).1 (w.markedTrail φ skipped u).1 with
    | none => rfl
    | some v =>
      dsimp only
      rcases w.markedTrail φ rest v with ⟨_ | v, es⟩ <;> simp
  | loop place body rest _ ih =>
    simp only [Block.append, markedTrail, ih]
    generalize w.revisitMarked (w.markedTrail φ body) w.heuristics.maxLoopIterations u = looped
    rcases w.markedTrail φ rest looped.1 with ⟨_ | v, es⟩ <;> simp

/-! ### What a loop covers -/

/-- Every instruction that is run in the unrolled body is run in the loop, from a state that covers
it. -/
def Mirrored (φ : Nat → Nat) (es : List (Event × List Origin)) (es' : List Event) : Prop :=
  ∀ position instruction s stale, (.run position instruction s, stale) ∈ es →
    ∃ t, .run (φ position) instruction t ∈ es' ∧ Covers φ ⟨s, stale⟩ t

section

variable {es later : List (Event × List Origin)} {es' later' : List Event}

theorem mirrored_nil (es' : List Event) : Mirrored φ [] es' := fun _ _ _ _ h => by cases h

theorem mirrored_leave (value : Option String) (s : State) (stale : List Origin)
    (es' : List Event) : Mirrored φ [(.leave value s, stale)] es' :=
  fun _ _ _ _ h => by cases List.mem_singleton.1 h

theorem Mirrored.cons (h : Mirrored φ es es') (hu : Covers φ u l) (position : Nat)
    (instruction : Instruction) :
    Mirrored φ ((.run position instruction u.state, u.stale) :: es)
      (.run (φ position) instruction l :: es') := by
  intro position' instruction' s stale hmem
  rcases List.mem_cons.1 hmem with heq | hmem
  · cases heq
    exact ⟨l, List.mem_cons_self, hu⟩
  · obtain ⟨t, ht, hcovers⟩ := h position' instruction' s stale hmem
    exact ⟨t, List.mem_cons_of_mem _ ht, hcovers⟩

theorem Mirrored.mono (h : Mirrored φ es es') (hsubset : es' ⊆ later') : Mirrored φ es later' :=
  fun position instruction s stale hmem =>
    (h position instruction s stale hmem).imp fun _ ht => ⟨hsubset ht.1, ht.2⟩

theorem Mirrored.union (h : Mirrored φ es es') (h' : Mirrored φ later es') :
    Mirrored φ (es ++ later) es' := fun position instruction s stale hmem =>
  (List.mem_append.1 hmem).elim (h position instruction s stale) (h' position instruction s stale)

theorem Mirrored.append (h : Mirrored φ es es') (h' : Mirrored φ later later') :
    Mirrored φ (es ++ later) (es' ++ later') :=
  (h.mono (List.subset_append_left es' later')).union
    (h'.mono (List.subset_append_right es' later'))

end

theorem meet_covers {taken skipped : Option Marked} {taken' skipped' : Option State}
    (htaken : Option.Rel (Covers φ) taken taken')
    (hskipped : Option.Rel (Covers φ) skipped skipped') :
    Option.Rel (Covers φ) (w.meetMarked taken skipped) (w.meet taken' skipped') := by
  cases htaken with
  | none => exact hskipped
  | @some u s hu =>
    cases hskipped with
    | none => exact .some hu
    | @some v t hv =>
      have hu' := hu.below (State.below_join s t w.heuristics.maxFieldDepth)
      have hv' := hv.below (State.below_join_right s t w.heuristics.maxFieldDepth)
      exact .some (hu'.join hv' w.heuristics.maxFieldDepth)

/-- From what a state covers, an unrolled block that reads no stale copy comes to what the outcome
covers, through events that the outcome mirrors. -/
def CoveredBy (w : Walk) (φ : Nat → Nat) (unrolled : Body) (l : State)
    (outcome : Option State × List Event) : Prop :=
  ∀ u, Covers φ u l → (∀ e ∈ (w.markedTrail φ unrolled u).2, w.CurrentAt e) →
    Option.Rel (Covers φ) (w.markedTrail φ unrolled u).1 outcome.1 ∧
      Mirrored φ (w.markedTrail φ unrolled u).2 outcome.2

theorem branch_covers {place place' : Place Nat} {taken taken' skipped skipped' rest rest' : Body}
    (htaken : w.CoveredBy φ taken' l (w.trail taken l))
    (hskipped : w.CoveredBy φ skipped' l (w.trail skipped l))
    (hrest : ∀ t ∈ w.meet (w.trail taken l).1 (w.trail skipped l).1,
      w.CoveredBy φ rest' t (w.trail rest t)) :
    w.CoveredBy φ (.branch place' taken' skipped' rest') l
      (w.trail (.branch place taken skipped rest) l) := by
  intro u hu hcurrent
  rw [markedTrail] at hcurrent ⊢
  rw [trail]
  simp only at hcurrent ⊢
  have harms : (∀ e ∈ (w.markedTrail φ taken' u).2, w.CurrentAt e) ∧
      ∀ e ∈ (w.markedTrail φ skipped' u).2, w.CurrentAt e := by
    split at hcurrent
    · exact List.forall_mem_append.1 (List.forall_mem_append.1 hcurrent).1
    · exact List.forall_mem_append.1 hcurrent
  obtain ⟨hstopTaken, hmirroredTaken⟩ := htaken u hu harms.1
  obtain ⟨hstopSkipped, hmirroredSkipped⟩ := hskipped u hu harms.2
  have hmeet := meet_covers (w := w) hstopTaken hstopSkipped
  generalize w.meetMarked (w.markedTrail φ taken' u).1 (w.markedTrail φ skipped' u).1 = met
    at hmeet hcurrent ⊢
  generalize w.meet (w.trail taken l).1 (w.trail skipped l).1 = met' at hmeet hrest ⊢
  cases hmeet with
  | none => exact ⟨.none, hmirroredTaken.append hmirroredSkipped⟩
  | some hmet =>
    obtain ⟨hstop, hmirrored⟩ := hrest _ rfl _ hmet (List.forall_mem_append.1 hcurrent).2
    exact ⟨hstop, (hmirroredTaken.append hmirroredSkipped).append hmirrored⟩

/-- A pass of the loop that comes back below its head covers all passes of an unrolled loop that
start covered by the head. -/
theorem revisit_covers {body : Body} {last : State} {outcome : Option State × List Event}
    (hbody : w.CoveredBy φ body last outcome)
    (hstop : ∀ stop ∈ outcome.1, State.Below stop last) (passes : Nat) (hu : Covers φ u last)
    (hcurrent : ∀ e ∈ (w.revisitMarked (w.markedTrail φ body) passes u).2, w.CurrentAt e) :
    Covers φ (w.revisitMarked (w.markedTrail φ body) passes u).1 last ∧
      Mirrored φ (w.revisitMarked (w.markedTrail φ body) passes u).2 outcome.2 := by
  induction passes generalizing u with
  | zero => exact ⟨hu, mirrored_nil outcome.2⟩
  | succ passes ih =>
    have hnow := hbody u hu
    rw [revisitMarked] at hcurrent ⊢
    rcases hp : w.markedTrail φ body u with ⟨_ | stop, es⟩
    · rw [hp] at hcurrent hnow
      exact ⟨hu, (hnow hcurrent).2⟩
    · rw [hp] at hcurrent hnow
      have hjoin (hes : ∀ e ∈ es, w.CurrentAt e) :
          Covers φ (u.join stop w.heuristics.maxFieldDepth) last := by
        obtain ⟨stop', hstop', hcovers⟩ := rel_some_left (hnow hes).1
        exact hu.join (hcovers.below (hstop stop' hstop')) _
      by_cases hle : stop.state.le u.state w.heuristics.maxFieldDepth = true
      · simp only [hle, if_true] at hcurrent ⊢
        exact ⟨hjoin hcurrent, (hnow hcurrent).2⟩
      · simp only [hle, Bool.false_eq_true, if_false] at hcurrent ⊢
        obtain ⟨hes, hlater⟩ := List.forall_mem_append.1 hcurrent
        obtain ⟨hcovers, hmirrored⟩ := ih (hjoin hes) hlater
        exact ⟨hcovers, (hnow hes).2.union hmirrored⟩

/-! ### Loops that are not cut short -/

def Settles (w : Walk) (b : Body) (s : State) : Prop := ∀ l ∈ w.loops b s, ¬ l.CutShort w

structure IsLast (w : Walk) (body : Body) (s : State) : Prop where
  passes : 0 < w.heuristics.maxLoopIterations
  le : ∀ stop ∈ (w.trail body s).1, stop.le s w.heuristics.maxFieldDepth = true
  settles : w.Settles body s

section

variable {place : Place Nat} {body rest taken skipped : Body} {s : State}

theorem Settles.branch (h : w.Settles (.branch place taken skipped rest) s) :
    w.Settles taken s ∧ w.Settles skipped s ∧
      ∀ t ∈ w.meet (w.trail taken s).1 (w.trail skipped s).1, w.Settles rest t := by
  unfold Settles loops at h
  simp only [walk_eq] at h
  obtain ⟨harms, hrest⟩ := List.forall_mem_append.1 h
  obtain ⟨htaken, hskipped⟩ := List.forall_mem_append.1 harms
  refine ⟨htaken, hskipped, fun t ht => ?_⟩
  rw [Option.mem_def.1 ht] at hrest
  exact hrest

theorem loops_loop (place : Place Nat) (body rest : Body) (s : State) :
    w.loops (.loop place body rest) s =
      ⟨body, s⟩ ::
          (w.heads (fun t => (w.trail body t).1) w.heuristics.maxLoopIterations s).flatMap
            (w.loops body) ++
        w.loops rest (w.revisit (w.trail body) w.heuristics.maxLoopIterations s).1 := by
  have hwalk : (fun t => (w.walk body t ∅).1) = fun t => (w.trail body t).1 := by
    funext t
    rw [walk_eq]
  rw [loops, hwalk, w.iterate_eq (w.walk_eq body)]

theorem cutShort_iff : (Loop.mk body s).CutShort w ↔
    ∀ k < w.heuristics.maxLoopIterations, ∃ stop,
      (w.trail body (w.revisit (w.trail body) k s).1).1 = some stop ∧
        stop.le (w.revisit (w.trail body) k s).1 w.heuristics.maxFieldDepth = false := by
  unfold Loop.CutShort Loop.headAfter
  simp only [walk_eq, w.iterate_eq (w.walk_eq body)]
  rfl

/-- A loop that is not cut short comes to a last head. -/
theorem Settles.loop (h : w.Settles (.loop place body rest) s) :
    ∃ last, w.IsLast body last ∧ State.Below s last ∧
      State.Below last (w.revisit (w.trail body) w.heuristics.maxLoopIterations s).1 ∧
      (w.trail body last).2 ⊆ (w.revisit (w.trail body) w.heuristics.maxLoopIterations s).2 ∧
      w.Settles rest (w.revisit (w.trail body) w.heuristics.maxLoopIterations s).1 := by
  unfold Settles at h
  rw [loops_loop] at h
  obtain ⟨hloops, hrest⟩ := List.forall_mem_append.1 h
  obtain ⟨hself, hinner⟩ := List.forall_mem_cons.1 hloops
  have hpasses : 0 < w.heuristics.maxLoopIterations := Nat.pos_of_ne_zero fun hzero =>
    hself (cutShort_iff.2 fun k hk => absurd hk (hzero ▸ Nat.not_lt_zero k))
  obtain ⟨last, hlast, hbelow, hhead, hes, hle⟩ := exists_last _ _ s (mt cutShort_iff.2 hself)
  have hsettles : w.Settles body last := fun l hl =>
    hinner l (List.mem_flatMap.2 ⟨last, hlast, hl⟩)
  exact ⟨last, ⟨hpasses, hle, hsettles⟩, hbelow, hhead, hes, hrest⟩

/-- From a last head the loop makes one pass and comes back below the head. -/
theorem IsLast.revisit (h : w.IsLast body s) :
    (w.revisit (w.trail body) w.heuristics.maxLoopIterations s).2 = (w.trail body s).2 ∧
      State.Below (w.revisit (w.trail body) w.heuristics.maxLoopIterations s).1 s := by
  obtain ⟨passes, hpasses⟩ := Nat.exists_eq_add_one.2 h.passes
  rw [hpasses]
  rcases hp : w.trail body s with ⟨_ | stop, es⟩
  · rw [revisit_of_none hp]
    exact ⟨rfl, (State.Within.refl s).below⟩
  · have hle := h.le stop (by rw [hp]; rfl)
    rw [revisit_of_le hp hle]
    exact ⟨rfl, ((State.Within.refl s).join_left (.of_le hle)).below⟩

theorem IsLast.settles_loop (h : w.IsLast body s) : w.Settles (.loop place body .done) s := by
  have hheads : w.heads (fun t => (w.trail body t).1) w.heuristics.maxLoopIterations s = [s] := by
    obtain ⟨passes, hpasses⟩ := Nat.exists_eq_add_one.2 h.passes
    rw [hpasses, heads]
    cases hstop : (w.trail body s).1 with
    | none => rfl
    | some stop => simp only [h.le stop hstop, if_true]
  have hself : ¬ (Loop.mk body s).CutShort w := fun hcut => by
    obtain ⟨stop, hstop, hle⟩ := cutShort_iff.1 hcut 0 h.passes
    exact Bool.eq_false_iff.1 hle (h.le stop hstop)
  intro l hl
  rw [loops_loop, hheads, List.flatMap_singleton] at hl
  rcases List.mem_append.1 hl with hl | hl
  · rcases List.mem_cons.1 hl with rfl | hl
    · exact hself
    · exact h.settles l hl
  · cases hl

end

section

variable {place place' : Place Nat} {body copy next rest rest' : Body} {last : State}

/-- A loop of the unrolled body is covered by the loop. -/
theorem loop_covers (hsettles : w.Settles (.loop place body rest) l)
    (hbody : ∀ s, w.Settles body s → w.CoveredBy φ copy s (w.trail body s))
    (hrest : ∀ s, w.Settles rest s → w.CoveredBy φ rest' s (w.trail rest s)) :
    w.CoveredBy φ (.loop place' copy rest') l (w.trail (.loop place body rest) l) := by
  intro u hu hcurrent
  obtain ⟨last, hlast, hbelow, hhead, hes, hsettlesRest⟩ := hsettles.loop
  obtain ⟨hpasses, hlater⟩ := List.forall_mem_append.1 hcurrent
  obtain ⟨hcovers, hmirrored⟩ := revisit_covers (hbody last hlast.settles)
    (fun stop hstop => .of_le (hlast.le stop hstop)) w.heuristics.maxLoopIterations
    (hu.below hbelow) hpasses
  obtain ⟨hstop, hmirroredRest⟩ := hrest _ hsettlesRest _ (hcovers.below hhead) hlater
  exact ⟨hstop, (hmirrored.mono hes).append hmirroredRest⟩

/-- What comes after the loop covers what comes after none of its iterations. -/
theorem skip_covers (hsettles : w.Settles (.loop place body rest) l)
    (hrest : ∀ s, w.Settles rest s → w.CoveredBy φ rest' s (w.trail rest s)) :
    w.CoveredBy φ rest' l (w.trail (.loop place body rest) l) := by
  intro u hu hcurrent
  obtain ⟨last, -, hbelow, hhead, -, hsettlesRest⟩ := hsettles.loop
  obtain ⟨hstop, hmirrored⟩ := hrest _ hsettlesRest _ (hu.below (hbelow.trans hhead)) hcurrent
  exact ⟨hstop, hmirrored.mono (List.subset_append_right _ _)⟩

/-- A last head covers a copy of the body and what is unrolled after it. -/
theorem arm_covers (hlast : w.IsLast body last)
    (hcopy : w.CoveredBy φ copy last (w.trail body last))
    (hnext : w.CoveredBy φ next last (w.trail (.loop place body .done) last))
    (hu : Covers φ u last)
    (hcurrent : ∀ e ∈ (w.markedTrail φ (copy.append next) u).2, w.CurrentAt e) :
    (∀ v ∈ (w.markedTrail φ (copy.append next) u).1, Covers φ v last) ∧
      Mirrored φ (w.markedTrail φ (copy.append next) u).2 (w.trail body last).2 := by
  obtain ⟨hevents, hhead⟩ := hlast.revisit
  rw [markedTrail_append] at hcurrent ⊢
  have hfirst := hcopy u hu
  rcases hp : w.markedTrail φ copy u with ⟨_ | v, es⟩
  · rw [hp] at hcurrent hfirst
    exact ⟨nofun, (hfirst hcurrent).2⟩
  · rw [hp] at hcurrent hfirst
    obtain ⟨hes, hlater⟩ := List.forall_mem_append.1 hcurrent
    obtain ⟨hstop, hmirrored⟩ := hfirst hes
    obtain ⟨stop', hstop', hv⟩ := rel_some_left hstop
    -- the copy ends below the last head, from which the loop makes one more pass only
    obtain ⟨hthen, hmirroredLater⟩ :=
      hnext v (hv.below (.of_le (hlast.le stop' hstop'))) hlater
    have htrail : (w.trail (.loop place body .done) last).2 = (w.trail body last).2 :=
      (List.append_nil _).trans hevents
    rw [htrail] at hmirroredLater
    refine ⟨fun v' hv' => ?_, hmirrored.union hmirroredLater⟩
    rw [Option.mem_def.1 hv'] at hthen
    obtain ⟨t, ht, hcovers⟩ := rel_some_left hthen
    cases ht
    exact hcovers.below hhead

/-- One iteration of the unrolled loop, with the ones after it, is covered by the loop. -/
theorem peel_covers (hsettles : w.Settles (.loop place body rest) l)
    (hcopy : ∀ s, w.Settles body s → w.CoveredBy φ copy s (w.trail body s))
    (hnext : ∀ s, w.Settles (.loop place body .done) s →
      w.CoveredBy φ next s (w.trail (.loop place body .done) s))
    (hrest : ∀ s, w.Settles rest s → w.CoveredBy φ rest' s (w.trail rest s)) :
    w.CoveredBy φ (.branch place' (copy.append next) .done rest') l
      (w.trail (.loop place body rest) l) := by
  intro u hu hcurrent
  obtain ⟨last, hlast, hbelow, hhead, hes, hsettlesRest⟩ := hsettles.loop
  simp only [markedTrail, List.append_nil] at hcurrent ⊢
  -- the other arm is empty, so that the arms meet and the last head covers where they do
  have hmeet (v? : Option Marked) (hv : ∀ v ∈ v?, Covers φ v last) :
      ∃ v, w.meetMarked v? (some u) = some v ∧ Covers φ v last := by
    cases v? with
    | none => exact ⟨u, rfl, hu.below hbelow⟩
    | some v => exact ⟨_, rfl, (hv v rfl).join (hu.below hbelow) _⟩
  have harm : ∀ e ∈ (w.markedTrail φ (copy.append next) u).2, w.CurrentAt e := by
    split at hcurrent
    · exact (List.forall_mem_append.1 hcurrent).1
    · exact hcurrent
  obtain ⟨hv, hmirrored⟩ := arm_covers hlast (hcopy last hlast.settles)
    (hnext last hlast.settles_loop) (hu.below hbelow) harm
  obtain ⟨v, hmet, hcovers⟩ := hmeet _ hv
  rw [hmet] at hcurrent ⊢
  obtain ⟨hstop, hmirroredRest⟩ :=
    hrest _ hsettlesRest v (hcovers.below hhead) (List.forall_mem_append.1 hcurrent).2
  exact ⟨hstop, (hmirrored.mono hes).append hmirroredRest⟩

end

/-- A loop covers its unrollings, as long as these read no stale copy. -/
theorem covers_trail {body unrolled : Body} (h : Block.Unrolls φ body unrolled)
    (hsettles : w.Settles body l) : w.CoveredBy φ unrolled l (w.trail body l) := by
  -- by induction on how the body is unrolled: `peel` needs the loop itself, unrolled further
  induction h generalizing l with
  | done => exact fun u hu _ => ⟨.some hu, mirrored_nil _⟩
  | @run position line instruction rest rest' _ ih =>
    intro u hu hcurrent
    obtain ⟨hnow, hlater⟩ := List.forall_mem_cons.1 hcurrent
    obtain ⟨hstop, hmirrored⟩ := ih hsettles _ (covers_mark hu hnow) hlater
    exact ⟨hstop, hmirrored.cons hu position instruction⟩
  | leave => exact fun u _ _ => ⟨.none, mirrored_leave _ _ _ _⟩
  | branch _ _ _ ihTaken ihSkipped ihRest =>
    obtain ⟨htaken, hskipped, hrest⟩ := hsettles.branch
    exact branch_covers (ihTaken htaken) (ihSkipped hskipped) fun t ht => ihRest (hrest t ht)
  | loop _ _ ihBody ihRest =>
    exact loop_covers hsettles (fun _ h => ihBody h) fun _ h => ihRest h
  | skip _ ih => exact skip_covers hsettles fun _ h => ih h
  | peel _ _ _ ihCopy ihNext ihRest =>
    exact peel_covers hsettles (fun _ h => ihCopy h) (fun _ h => ihNext h) fun _ h => ihRest h

/-! ### Events of methods -/

def withBody (w : Walk) (body : Body) : Walk :=
  { w with method := { w.method with body := some body } }

theorem events_withBody (w : Walk) (body : Body) :
    (w.withBody body).events body = w.events body := by
  have htrail : (w.withBody body).trail = w.trail := trail_congr rfl fun _ _ _ => rfl
  unfold events
  rw [htrail]
  rfl

theorem covers_entry (φ : Nat → Nat) (w : Walk) : Covers φ ⟨w.entry, []⟩ w.entry := by
  have hentry := w.entry_ofParameters
  refine ⟨fun r a ha => ?_, fun o _ => ?_⟩
  · obtain ⟨i, hi⟩ := hentry.read r a ha
    have hsame : a.renumber φ = a := by
      cases a
      cases hi
      rfl
    rwa [hsame]
  · cases htree : w.entry.tree? o with
    | none =>
      refine State.sub_of_not_mem_keys (fun hmem => ?_) _
      obtain ⟨tree, hsome⟩ := OrdMap.mem_keys.1 hmem
      cases htree.symm.trans hsome
    | some tree =>
      obtain ⟨i, rfl⟩ := hentry.tree o tree htree
      exact .refl _

/-- Every instruction that is run in the unrolled body is run in the loop, from a state that covers
it. -/
theorem events_mirrored {body unrolled : Body} (h : Block.Unrolls φ body unrolled)
    (hsettles : w.Settles body w.entry)
    (hcurrent : ∀ e ∈ (w.markedTrail φ unrolled ⟨w.entry, []⟩).2, w.CurrentAt e)
    {position : Nat} {instruction : Instruction} {s : State}
    (hmem : .run position instruction s ∈ w.events unrolled) :
    ∃ stale t, .run (φ position) instruction t ∈ w.events body ∧ Covers φ ⟨s, stale⟩ t ∧
      w.Current position instruction ⟨s, stale⟩ := by
  rw [mem_events_run, show w.entry = (Marked.mk w.entry []).state from rfl,
    trail_forget (w := w) unrolled] at hmem
  obtain ⟨⟨e, stale⟩, he, rfl⟩ := List.mem_map.1 hmem
  obtain ⟨-, hmirrored⟩ := covers_trail h hsettles _ (covers_entry φ w) hcurrent
  obtain ⟨t, ht, hcovers⟩ := hmirrored position instruction s stale he
  exact ⟨stale, t, mem_events_run.2 ht, hcovers, hcurrent _ he⟩

end Walk

/-! ### Observations -/

namespace MethodAnalysis

variable {w : Walk} {o : Observation}

/-- Observations of one sink of a numbered body name one callee. -/
theorem callee_eq_of_key {Pos : Type} {b : Block Pos} {next : Nat}
    (hbody : w.method.body = some (b.number next).1) (ho : o ∈ (run w).observations)
    {e : Walk.Event} (he : e ∈ w.events (b.number next).1) {own : Observation}
    (hown : own ∈ w.observedAt e) (hkey : o.key = own.key) : o.callee = own.callee := by
  have hcall := call_of_mem_observations hbody ho
  rw [show o.site = own.site from congrArg Prod.fst hkey] at hcall
  exact b.callee_unique hcall (Walk.call_of_mem_observedAt he hown)

/-- A loop that is not cut short covers its unrollings, as long as they read no copy of an object
that the loop has overwritten. -/
theorem run_unrolled {Pos : Type} {b : Block Pos} {position k : Nat}
    (hbody : w.method.body = some (b.number 0).1)
    (hcomplete : ∀ l ∈ w.loops (b.number 0).1 w.entry, ¬ l.CutShort w)
    (hcurrent : w.StaysCurrent ((b.number 0).1.unroll position k))
    (ho : o ∈ (run (w.withBody (((b.number 0).1.unroll position k).number 0).1)).observations)
    {source : Frame} (hsource : o.sources.Has source) :
    ∃ o' ∈ (run w).observations, o'.callee = o.callee ∧ o'.port = o.port ∧ o'.sink = o.sink ∧
      o'.sources.Has source := by
  obtain ⟨_, hunrolled, e, he, own, hown, hkey, hmem⟩ := observed_iff.1 ⟨o, ho, rfl, hsource⟩
  obtain rfl := Option.some.inj hunrolled
  have hcallee : o.callee = own.callee := callee_eq_of_key rfl ho he hown hkey.symm
  rw [Walk.events_withBody] at he
  cases e with
  | leave value s => cases hown
  | run place instruction s =>
    obtain ⟨stale, t, ht, hcovers, hnow⟩ := Walk.events_mirrored
      (Block.unrolls_numbered position k (b.number 0).1) hcomplete hcurrent he
    obtain ⟨found, hfound, hfoundCallee, hfoundPort, hfoundSink, hfoundSource⟩ :=
      Walk.observed_covered hcovers hnow hown hmem
    obtain ⟨o', ho', hkey', hsource'⟩ :=
      observed_iff.2 ⟨_, hbody, _, ht, found, hfound, rfl, hfoundSource⟩
    have hcallee' : o'.callee = found.callee := callee_eq_of_key hbody ho' ht hfound hkey'
    obtain ⟨-, hport, hsink⟩ : own.site = o.site ∧ own.port = o.port ∧ own.sink = o.sink := by
      simpa [Observation.key] using hkey
    obtain ⟨-, hport', hsink'⟩ : o'.site = found.site ∧ o'.port = found.port ∧
        o'.sink = found.sink := by
      simpa [Observation.key] using hkey'
    exact ⟨o', ho', by rw [hcallee', hfoundCallee, hcallee], by rw [hport', hfoundPort, hport],
      by rw [hsink', hfoundSink, hsink], hsource'⟩

def looping (before body : List Instruction) : Block Unit :=
  let inOrder (instructions : List Instruction) (rest : Block Unit) : Block Unit :=
    instructions.foldr (.run ⟨(), none⟩) rest
  inOrder before (.loop ⟨(), none⟩ (inOrder body .done) .done)

def generating (fields : List (List String)) : Callee :=
  .modeled { (∅ : Model) with
    generations := Model.ofFrames
      (fields.map fun path => (⟨.result, path.map .field⟩, .ofKind ⟨0⟩, ∅)) }

def nesting : Model :=
  ((∅ : Model).addPropagation ⟨.argument 0, .result, [], ∅, false, ∅⟩).addPropagation
    ⟨.argument 1, ⟨.result, [.field "f"]⟩, [], ∅, false, ∅⟩

def supplying : String → Callee
  | "read" => generating [[]]
  | "make" => .modeled ∅
  | "show" => .modeled ((∅ : Model).addSink (.argument 0) (.ofKind ⟨1⟩) ∅)
  | "abc" => generating [["a"], ["b"], ["c"]]
  | "de" => generating [["d"], ["e"]]
  | "gh" => generating [["g"], ["h"]]
  | "nest" => .modeled nesting
  | _ => .obscure

def repeating (b : Block Unit) : Walk :=
  ⟨⟨⟨0⟩, "main", [], some (b.number 0).1, none⟩, {}, supplying⟩

def unrolling (b : Block Unit) (position k : Nat) : Walk :=
  (repeating b).withBody (((b.number 0).1.unroll position k).number 0).1

/-- What one iteration makes is shown in the next one, before that makes its own. -/
def showingThenMaking : Block Unit :=
  looping [.call "read" [] (some "t")]
    [.call "show" ["y"] none, .call "make" [] (some "x"), .fieldWrite "x" (.field "f") "t",
      .move "y" "x"]

theorem run_unrolled_shownFirst :
    ∃ o ∈ (run (unrolling showingThenMaking 1 2)).observations,
      o.sources.Has (.ofKind ⟨0⟩) ∧
        ∃ o' ∈ (run (repeating showingThenMaking)).observations,
          o'.callee = o.callee ∧ o'.port = o.port ∧ o'.sink = o.sink ∧
            o'.sources.Has (.ofKind ⟨0⟩) := by
  have hmem : ∃ o ∈ (run (unrolling showingThenMaking 1 2)).observations,
      o.sources.Has (.ofKind ⟨0⟩) := by decide
  obtain ⟨o, ho, hsource⟩ := hmem
  exact ⟨o, ho, hsource, run_unrolled (w := repeating showingThenMaking) rfl (by decide) (by decide)
    ho hsource⟩

/-- The unrolled loop shows a source, and the loop, which is not cut short, shows nothing. -/
def Misses (b : Block Unit) (position k : Nat) : Prop :=
  (∀ l ∈ (repeating b).loops (b.number 0).1 (repeating b).entry, ¬ l.CutShort (repeating b)) ∧
    (∃ o ∈ (run (unrolling b position k)).observations, o.sources.Has (.ofKind ⟨0⟩)) ∧
    (run (repeating b)).observations = []

instance (b : Block Unit) (position k : Nat) : Decidable (Misses b position k) :=
  inferInstanceAs (Decidable (_ ∧ _ ∧ _))

theorem loop_misses :
    -- what one iteration makes is shown in the next one, after that has made its own
    Misses
      (looping [.call "read" [] (some "t")]
        [.call "make" [] (some "x"), .call "show" ["y"] none, .fieldWrite "x" (.field "f") "t",
          .move "y" "x"]) 1 2 ∧
    -- a field is overwritten through a register that holds nothing in the second iteration
    Misses
      (looping [.call "read" [] (some "t"), .call "make" [] (some "c"), .fresh "x", .move "y" "x"]
        [.fieldWrite "y" (.field "f") "c", .fieldRead "r" "x" (.field "f"),
          .call "show" ["r"] none, .fieldWrite "x" (.field "f") "t", .move "y" "z"]) 4 2 ∧
    -- with the fields of both iterations an inner field is merged, and not the whole result
    Misses
      (looping [.call "gh" [] (some "q"), .call "de" [] (some "p")]
        [.call "nest" ["q", "p"] (some "y"), .fieldRead "r" "y" (.field "other"),
          .call "show" ["r"] none, .call "abc" [] (some "p")]) 2 2 := by decide

end MethodAnalysis

end TaintFlow
