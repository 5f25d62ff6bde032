import TaintFlow.Proofs.Monotonicity

/-!
Heads of loops. A pass over the body of a loop that adds nothing to the head ends the loop, and such
a head is stable: walking the body once more and joining the end into the head gives the same head
(`Walk.Loop.Stable`). The pass cannot tell the head from the one before it, which at most lacks
registers that hold nothing (`Walk.trail_alike`). A loop whose head is not stable made all the
passes that it may make, and each of them added something (`Walk.Loop.stable_or_cutShort`).
-/

namespace TaintFlow

/-! ### Joins that bring nothing new -/

namespace Node

variable {depth : Nat} {s t : Node}

/-- A field before all that are listed is put in front. -/
theorem put_of_lt {name : String} {child : Node} (h : ∀ n ∈ t.names, compare name n = .lt) :
    t.put name child = .field name child t := by
  cases t with
  | bare fs => rfl
  | field n c rest =>
    rw [put, h n List.mem_cons_self]

theorem eq_bare_of_names (h : s.names.isEmpty = true) : s = .bare s.frames := by
  cases s with
  | bare fs => rfl
  | field name child rest => cases h

theorem join_eq_left (ht : t.Ordered) (h : le depth s t = true) : t.join depth s = t := by
  induction t generalizing s with
  | bare fs =>
    obtain ⟨hframes, hnames⟩ := Bool.and_eq_true_iff.1 h
    have hjoin : s.frames.join fs = fs :=
      FrameSet.le_antisymm (FrameSet.join_le hframes (FrameSet.le_refl fs)) (FrameSet.le_join_right _ _)
    rw [eq_bare_of_names hnames]
    exact congrArg bare hjoin
  | field name child rest ihChild ihRest =>
    obtain ⟨hlt, hchild, hrest⟩ := ht
    obtain ⟨hstep, herase⟩ := Bool.and_eq_true_iff.1 h
    rw [join, ihChild hchild hstep, ihRest hrest herase, put_of_lt hlt]

end Node

theorem TaintTree.join_eq_left {t u : TaintTree} {depth : Nat} (h : u.le t depth = true) :
    t.join u depth = t := by
  have hroot := Node.join_eq_left t.ordered h
  cases t
  unfold join
  congr 1

namespace State

variable {s t : State} {depth : Nat}

theorem taint_join_of_le (h : t.le s depth = true) : (s.join t depth).taint = s.taint := by
  refine OrdMap.ext fun o => ?_
  rw [join, OrdMap.get?_union]
  cases hown : t.taint.get? o with
  | none => cases s.taint.get? o <;> rfl
  | some tree =>
    obtain ⟨tree', htree', hle⟩ := (le_iff.1 h).2 o tree hown
    rw [show s.taint.get? o = some tree' from htree']
    exact congrArg some (TaintTree.join_eq_left hle)

theorem read_join_of_le (h : t.le s depth = true) (register : String) :
    (s.join t depth).read register = s.read register := by
  rw [read_join]
  exact OrdSet.union_eq_left fun l hl => (le_iff.1 h).1 register l hl

theorem isBound_join {register : String} : (s.join t depth).isBound register = true ↔
    s.isBound register = true ∨ t.isBound register = true := by
  simp only [isBound, join, OrdMap.contains, OrdMap.get?_union]
  cases s.aliases.get? register <;> cases t.aliases.get? register <;> simp

/-- A join that brings nothing new changes nothing, if it binds no new register either. -/
theorem join_eq_left (h : t.le s depth = true)
    (hbound : ∀ register, t.isBound register = true → s.isBound register = true) :
    s.join t depth = s := by
  have haliases : (s.join t depth).aliases = s.aliases := by
    refine OrdMap.ext fun register => ?_
    rw [join, OrdMap.get?_union]
    cases hother : t.aliases.get? register with
    | none => cases s.aliases.get? register <;> rfl
    | some L =>
      have hreadOther : t.read register = L := by
        rw [read, OrdMap.getD, hother]
        rfl
      obtain ⟨own, hown⟩ := OrdMap.contains_iff.1
        (hbound register (OrdMap.contains_iff.2 ⟨L, hother⟩))
      have hreadOwn : s.read register = own := by
        rw [read, OrdMap.getD, hown]
        rfl
      rw [hown]
      refine congrArg some (OrdSet.union_eq_left fun l hl => ?_)
      rw [← hreadOwn]
      exact (le_iff.1 h).1 register l (hreadOther.symm ▸ hl)
  have htaint := taint_join_of_le h
  cases s
  exact congr (congrArg State.mk haliases) htaint

/-! ### States that differ in empty registers only -/

/-- What is read and held is the same, and what the second state binds the first one binds too, or a
third one. -/
structure Alike (more s t : State) : Prop where
  read : ∀ register, s.read register = t.read register
  taint : s.taint = t.taint
  bound : ∀ register, t.isBound register = true →
    s.isBound register = true ∨ more.isBound register = true

namespace Alike

variable {more s' t' : State} {L : AliasSet} {path : Path} {tree : TaintTree}

theorem readAll (h : Alike more s t) (L : AliasSet) (path : Path) (depth : Nat) :
    s.readAll L path depth = t.readAll L path depth := by
  have hread (l : Location) : s.readAt l path depth = t.readAt l path depth := by
    unfold readAt State.tree?
    rw [h.taint]
  simp only [State.readAll, hread]

theorem readRegister (h : Alike more s t) (register : String) (depth : Nat) :
    s.readRegister register depth = t.readRegister register depth := by
  unfold State.readRegister
  rw [h.read, h.readAll]

theorem bind (h : Alike more s t) (register : String) (L : AliasSet) :
    Alike more (s.bind register L) (t.bind register L) where
  read r := by
    rw [read_bind, read_bind, h.read]
  taint := h.taint
  bound r hr := by
    simp only [isBound, State.bind, OrdMap.contains, OrdMap.get?_insert] at hr ⊢
    split
    · exact .inl rfl
    · next hne =>
      rw [if_neg hne] at hr
      exact h.bound r hr

theorem writeAt (h : Alike more s t) (l : Location) (path : Path) (tree : TaintTree)
    (strong : Bool) (depth : Nat) :
    Alike more (s.writeAt l path tree strong depth) (t.writeAt l path tree strong depth) where
  read := h.read
  taint := by
    unfold State.writeAt
    rw [h.taint]
  bound := h.bound

theorem writeAll (h : Alike more s t) (L : AliasSet) (path : Path) (tree : TaintTree)
    (strong : Bool) (depth : Nat) :
    Alike more (s.writeAll L path tree strong depth) (t.writeAll L path tree strong depth) := by
  unfold State.writeAll
  induction L.toList generalizing s t with
  | nil => exact h
  | cons l ls ih => exact ih (h.writeAt l path tree _ depth)

theorem join (h : Alike more s s') (h' : Alike more t t') (depth : Nat) :
    Alike more (s.join t depth) (s'.join t' depth) where
  read r := by rw [read_join, read_join, h.read, h'.read]
  taint := by
    unfold State.join
    rw [h.taint, h'.taint]
  bound r hr := by
    rw [isBound_join] at hr ⊢
    rcases hr with hr | hr
    · exact (h.bound r hr).imp_left .inl
    · exact (h'.bound r hr).imp_left .inr

theorem le_eq (h : Alike more s s') (h' : Alike more t t') (depth : Nat) :
    s.le t depth = s'.le t' depth := by
  rw [Bool.eq_iff_iff, le_iff, le_iff]
  unfold tree?
  simp only [h.read, h'.read, h.taint, h'.taint]

end Alike

end State

/-! ### Walks from states that differ in empty registers only -/

namespace Call

variable {h : Heuristics} {c : Call} {more s t : State}

theorem outputs_alike (hs : State.Alike more s t) (model : Model) :
    c.outputs h model s = c.outputs h model t := by
  have hpropagate : c.propagate h s = c.propagate h t := by
    funext o p
    unfold propagate
    simp only [hs.readAll]
  unfold outputs
  rw [hpropagate]

theorem bindResult_alike (hs : State.Alike more s t) (register : String) (returned : TaintTree)
    (shared : AliasSet) : State.Alike more (c.bindResult h s register returned shared)
      (c.bindResult h t register returned shared) :=
  (hs.writeAt _ [] returned true h.maxFieldDepth).bind register _

theorem run_alike (hs : State.Alike more s t) (callee : Callee) (result : Option String) :
    State.Alike more (c.run h callee result s).1 (c.run h callee result t).1 := by
  cases callee with
  | obscure =>
    have hobscured : c.obscured h s = c.obscured h t := by
      unfold obscured
      simp only [hs.readAll]
    cases result with
    | none => exact hs
    | some register =>
      show State.Alike more (c.bindResult h s register (.leaf (c.obscured h s)) ∅) _
      rw [hobscured]
      exact bindResult_alike hs register _ ∅
  | modeled model =>
    have hafter (o : List (Root × TaintTree)) : ∀ {s t : State}, State.Alike more s t →
        State.Alike more (o.foldl (fun s e => c.writeArgument h s e.1 e.2) s)
          (o.foldl (fun s e => c.writeArgument h s e.1 e.2) t) := by
      induction o with
      | nil => exact id
      | cons e o ih =>
        refine fun {s t} hs => ih ?_
        show State.Alike more (c.writeArgument h s e.1 e.2) (c.writeArgument h t e.1 e.2)
        unfold writeArgument
        split
        · exact hs.writeAll _ [] e.2 false h.maxFieldDepth
        · exact hs
    have hwritten := hafter (c.outputs h model s).entries hs
    rw [run, run]
    simp only
    rw [← outputs_alike hs model]
    cases result with
    | none => exact hwritten
    | some register => exact bindResult_alike hwritten register _ _

end Call

namespace Walk

variable {w : Walk} {more s t : State}

theorem apply_alike (hs : State.Alike more s t) (position : Nat) (instruction : Instruction) :
    State.Alike more (w.apply position instruction s).1 (w.apply position instruction t).1 := by
  cases instruction with
  | fresh dest => exact hs.bind dest _
  | move dest src =>
    show State.Alike more (s.bind dest (s.read src)) (t.bind dest (t.read src))
    rw [hs.read]
    exact hs.bind dest _
  | fieldRead dest base field =>
    show State.Alike more (s.bind dest ((s.read base).map _)) (t.bind dest ((t.read base).map _))
    rw [hs.read]
    exact hs.bind dest _
  | fieldWrite base field src =>
    show State.Alike more (s.writeAll (s.read base) [field] (s.readRegister src _) true _)
      (t.writeAll (t.read base) [field] (t.readRegister src _) true _)
    rw [hs.read, hs.readRegister]
    exact hs.writeAll _ [field] _ true _
  | call callee args result =>
    have hargs : args.map s.read = args.map t.read := List.map_congr_left fun r _ => hs.read r
    show State.Alike more (Call.run w.heuristics ⟨_, _, _, args.map s.read⟩ _ _ s).1
      (Call.run w.heuristics ⟨_, _, _, args.map t.read⟩ _ _ t).1
    rw [hargs]
    exact Call.run_alike hs _ result

theorem revisit_alike {pass : State → Option State × List Event}
    (hpass : ∀ {s t}, State.Alike more s t →
      Option.Rel (State.Alike more) (pass s).1 (pass t).1)
    (passes : Nat) (hs : State.Alike more s t) :
    State.Alike more (w.revisit pass passes s).1 (w.revisit pass passes t).1 := by
  induction passes generalizing s t with
  | zero => exact hs
  | succ passes ih =>
    have hstop := hpass hs
    rw [revisit, revisit]
    rcases hp : pass s with ⟨_ | stop, es⟩ <;> rcases hq : pass t with ⟨_ | stop', es'⟩ <;>
      rw [hp, hq] at hstop
    · exact hs
    · cases hstop
    · cases hstop
    · obtain ⟨hstop⟩ := hstop
      have hjoin := hs.join hstop w.heuristics.maxFieldDepth
      simp only [hstop.le_eq hs]
      split
      · exact hjoin
      · exact ih hjoin

/-- What a walk comes to does not depend on which registers are bound to nothing. -/
theorem trail_alike (body : Body) (hs : State.Alike more s t) :
    Option.Rel (State.Alike more) (w.trail body s).1 (w.trail body t).1 := by
  induction body generalizing s t with
  | done => exact .some hs
  | run place instruction rest ih => exact ih (apply_alike hs place.position instruction)
  | leave place value rest => exact .none
  | branch place taken skipped rest ihTaken ihSkipped ihRest =>
    have hmeet := meet_rel (v := w) (w := w) (fun _ _ _ _ h h' => h.join h' _)
      (ihTaken hs) (ihSkipped hs)
    rw [trail, trail]
    simp only
    generalize w.meet (w.trail taken s).1 (w.trail skipped s).1 = u at hmeet
    generalize w.meet (w.trail taken t).1 (w.trail skipped t).1 = v at hmeet
    cases hmeet with
    | none => exact .none
    | some h => exact ihRest h
  | loop place body rest ihBody ihRest =>
    exact ihRest (revisit_alike ihBody w.heuristics.maxLoopIterations hs)

/-! ### Loops -/

structure Loop where
  body : Body
  entry : State

section Loops

variable (w : Walk)

/-- The states from which the passes over the body of a loop start. -/
def heads (pass : State → Option State) : Nat → State → List State
  | 0, _ => []
  | passes + 1, head =>
    head ::
      match pass head with
      | none => []
      | some stop =>
        if stop.le head w.heuristics.maxFieldDepth then []
        else heads pass passes (head.join stop w.heuristics.maxFieldDepth)

/-- The loops that the walk of a block comes to, those inside of other loops in every pass. -/
def loops : Body → State → List Loop
  | .done, _ => []
  | .run place instruction rest, s => loops rest (w.apply place.position instruction s).1
  | .leave _ _ _, _ => []
  | .branch _ taken skipped rest, s =>
    loops taken s ++ loops skipped s ++
      ((w.meet (w.walk taken s ∅).1 (w.walk skipped s ∅).1).map (loops rest)).getD []
  | .loop _ body rest, s =>
    let starts := w.heads (fun s => (w.walk body s ∅).1) w.heuristics.maxLoopIterations s
    ⟨body, s⟩ :: starts.flatMap (loops body) ++
      loops rest (w.iterate (w.walk body) w.heuristics.maxLoopIterations s ∅).1

variable (l : Loop)

def Loop.headAfter (passes : Nat) : State := (w.iterate (w.walk l.body) passes l.entry ∅).1

def Loop.head : State := l.headAfter w w.heuristics.maxLoopIterations

/-- Walking the body once more from the head and joining its end into the head changes nothing. -/
def Loop.Stable : Prop :=
  ∀ stop ∈ (w.walk l.body (l.head w) ∅).1,
    (l.head w).join stop w.heuristics.maxFieldDepth = l.head w

/-- All the passes that may be made added something to the head. -/
def Loop.CutShort : Prop :=
  ∀ passes < w.heuristics.maxLoopIterations,
    ∃ stop ∈ (w.walk l.body (l.headAfter w passes) ∅).1,
      stop.le (l.headAfter w passes) w.heuristics.maxFieldDepth = false

instance : Decidable (l.Stable w) := inferInstanceAs (Decidable (∀ _ ∈ _, _))

instance : Decidable (l.CutShort w) := inferInstanceAs (Decidable (∀ _ < _, ∃ _ ∈ _, _))

end Loops

/-- The head of a loop has a pass that does not come to its end, is the join with a pass that adds
nothing, or comes after passes that all add something. -/
theorem revisit_cases (pass : State → Option State × List Event) (passes : Nat) (head : State) :
    (∃ es, pass (w.revisit pass passes head).1 = (none, es)) ∨
    (∃ last stop, (pass last).1 = some stop ∧ stop.le last w.heuristics.maxFieldDepth = true ∧
      (w.revisit pass passes head).1 = last.join stop w.heuristics.maxFieldDepth) ∨
    ∀ k < passes, ∃ stop, (pass (w.revisit pass k head).1).1 = some stop ∧
      stop.le (w.revisit pass k head).1 w.heuristics.maxFieldDepth = false := by
  induction passes generalizing head with
  | zero => exact .inr (.inr fun k hk => absurd hk (Nat.not_lt_zero k))
  | succ passes ih =>
    rcases hp : pass head with ⟨_ | stop, es⟩
    · refine .inl ⟨es, ?_⟩
      rw [revisit, hp]
      exact hp
    · cases hle : stop.le head w.heuristics.maxFieldDepth with
      | true =>
        refine .inr (.inl ⟨head, stop, by rw [hp], hle, ?_⟩)
        rw [revisit, hp]
        simp only [hle, if_true]
      | false =>
        -- the passes after the first one are those of a loop that starts at the join
        have hnext (k : Nat) : (w.revisit pass (k + 1) head).1 =
            (w.revisit pass k (head.join stop w.heuristics.maxFieldDepth)).1 := by
          rw [revisit, hp]
          simp only [hle, Bool.false_eq_true, if_false]
        rw [hnext]
        refine (ih _).imp_right (Or.imp_right fun hgrows k hk => ?_)
        cases k with
        | zero => exact ⟨stop, congrArg Prod.fst hp, hle⟩
        | succ k =>
          rw [hnext]
          exact hgrows k (Nat.lt_of_succ_lt_succ hk)

/-- A loop that is not cut short has a last head, from which a pass adds nothing. -/
theorem exists_last (pass : State → Option State × List Event) (passes : Nat) (head : State)
    (h : ¬ ∀ k < passes, ∃ stop, (pass (w.revisit pass k head).1).1 = some stop ∧
      stop.le (w.revisit pass k head).1 w.heuristics.maxFieldDepth = false) :
    ∃ last ∈ w.heads (fun s => (pass s).1) passes head,
      State.Below head last ∧ State.Below last (w.revisit pass passes head).1 ∧
        (pass last).2 ⊆ (w.revisit pass passes head).2 ∧
        ∀ stop, (pass last).1 = some stop → stop.le last w.heuristics.maxFieldDepth = true := by
  induction passes generalizing head with
  | zero => exact absurd (fun k hk => absurd hk (Nat.not_lt_zero k)) h
  | succ passes ih =>
    have hself : State.Below head head := (State.Within.refl head).below
    rcases hp : pass head with ⟨_ | stop, es⟩
    · refine ⟨head, List.mem_cons_self, hself, below_revisit .., ?_, fun stop hstop => ?_⟩
      · rw [revisit_of_none hp, hp]
        exact List.Subset.refl es
      · rw [hp] at hstop
        cases hstop
    · cases hle : stop.le head w.heuristics.maxFieldDepth with
      | true =>
        refine ⟨head, List.mem_cons_self, hself, below_revisit .., ?_, fun stop' hstop' => ?_⟩
        · rw [revisit_of_le hp hle, hp]
          exact List.Subset.refl es
        · rw [hp] at hstop'
          cases hstop'
          exact hle
      | false =>
        have hnext (k : Nat) := revisit_of_not_le (w := w) hp (Bool.eq_false_iff.1 hle) k
        obtain ⟨last, hlast, hbelow, hhead, hes, hstop⟩ :=
          ih (head.join stop w.heuristics.maxFieldDepth) fun hgrows => h fun k hk => by
            cases k with
            | zero => exact ⟨stop, congrArg Prod.fst hp, hle⟩
            | succ k =>
              rw [hnext]
              exact hgrows k (Nat.lt_of_succ_lt_succ hk)
        refine ⟨last, ?_, (State.below_join head stop _).trans hbelow, ?_, ?_, hstop⟩
        · simp only [heads, hp, hle, Bool.false_eq_true, if_false]
          exact List.mem_cons_of_mem _ hlast
        · rw [hnext]
          exact hhead
        · rw [hnext]
          exact List.subset_append_of_subset_right es hes

/-- Joining a pass that adds nothing leaves a head that every further pass leaves as it is. -/
theorem join_again_eq {body : Body} {last stop stop' : State}
    (hstop : (w.trail body last).1 = some stop)
    (hle : stop.le last w.heuristics.maxFieldDepth = true)
    (hstop' : (w.trail body (last.join stop w.heuristics.maxFieldDepth)).1 = some stop') :
    (last.join stop w.heuristics.maxFieldDepth).join stop' w.heuristics.maxFieldDepth =
      last.join stop w.heuristics.maxFieldDepth := by
  let depth := w.heuristics.maxFieldDepth
  -- the join may bind more registers than the last head, though all of those to nothing
  have halike : State.Alike (last.join stop depth) last (last.join stop depth) :=
    ⟨fun register => (State.read_join_of_le hle register).symm, (State.taint_join_of_le hle).symm,
      fun _ => .inr⟩
  have hstops := trail_alike (w := w) body halike
  rw [hstop, hstop'] at hstops
  obtain ⟨hstops⟩ := hstops
  refine State.join_eq_left ?_ fun register hregister => ?_
  · rw [← hstops.le_eq halike]
    exact hle
  · rcases hstops.bound register hregister with hregister | hregister
    · exact State.isBound_join.2 (.inr hregister)
    · exact hregister

/-- A loop comes to a stable head, or makes all the passes that it may make and each adds something
to the head. -/
theorem Loop.stable_or_cutShort (w : Walk) (l : Loop) : l.Stable w ∨ l.CutShort w := by
  have hwalk (s : State) : (w.walk l.body s ∅).1 = (w.trail l.body s).1 := by rw [walk_eq]
  have hhead (passes : Nat) :
      l.headAfter w passes = (w.revisit (w.trail l.body) passes l.entry).1 :=
    congrArg Prod.fst (w.iterate_eq (w.walk_eq l.body) passes l.entry ∅)
  unfold Stable CutShort head
  simp only [hwalk, hhead]
  rcases w.revisit_cases (w.trail l.body) w.heuristics.maxLoopIterations l.entry with
    ⟨es, hnone⟩ | ⟨last, stop, hstop, hle, heq⟩ | hgrows
  · refine .inl fun stop hstop => ?_
    rw [hnone] at hstop
    cases hstop
  · rw [heq]
    exact .inl fun stop' hstop' => join_again_eq hstop hle hstop'
  · exact .inr hgrows

end Walk

end TaintFlow
