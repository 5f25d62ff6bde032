import TaintFlow.Proofs.RelatedStates

/-!
Two walks of one body in step. Where instructions and joins keep a relation between states, the
walks meet the same events in related states (`Walk.Lockstep.trail_matched`). Loops are where they
part: one walk may find its head again while the other still adds something to its own. The relation
does not see a join that brings nothing new, so the walk that is done waits at its head, and every
further event of the other is matched by one of its last pass. Hence events are matched as sets.
That is all a join over them depends on: a tree that is joined from what is handed back passes a
test if and only if what some event hands back does (`Walk.passes_treeAt`).
-/

namespace TaintFlow

namespace Walk

variable {R : State → State → Prop} {v w : Walk} {s t : State}

/-! ### Events -/

inductive Event.Related (R : State → State → Prop) : Event → Event → Prop
  | run {s t : State} (position : Nat) (instruction : Instruction) (h : R s t) :
    Related R (.run position instruction s) (.run position instruction t)
  | leave {s t : State} (value : Option String) (h : R s t) :
    Related R (.leave value s) (.leave value t)

theorem Event.Related.swap {e e' : Event} (h : e.Related R e') : e'.Related (flip R) e := by
  cases h with
  | run position instruction h => exact .run position instruction h
  | leave value h => exact .leave value h

/-- Every event of either list has a related one in the other. -/
structure Matched (R : State → State → Prop) (es es' : List Event) : Prop where
  forth : ∀ e ∈ es, ∃ e' ∈ es', e.Related R e'
  back : ∀ e' ∈ es', ∃ e ∈ es, e.Related R e'

namespace Matched

variable {es es' later later' : List Event}

theorem nil : Matched R [] [] := ⟨nofun, nofun⟩

theorem singleton {e e' : Event} (h : e.Related R e') : Matched R [e] [e'] where
  forth _ he := List.mem_singleton.1 he ▸ ⟨e', List.mem_singleton_self e', h⟩
  back _ he := List.mem_singleton.1 he ▸ ⟨e, List.mem_singleton_self e, h⟩

theorem swap (h : Matched R es es') : Matched (flip R) es' es where
  forth e he := let ⟨e', he', hrel⟩ := h.back e he; ⟨e', he', hrel.swap⟩
  back e he := let ⟨e', he', hrel⟩ := h.forth e he; ⟨e', he', hrel.swap⟩

/-- The second list may go on with events that the first one has already. -/
theorem append_right (h : Matched R es es')
    (hlater : ∀ e' ∈ later', ∃ e ∈ es, e.Related R e') : Matched R es (es' ++ later') where
  forth e he := let ⟨e', he', hrel⟩ := h.forth e he; ⟨e', List.mem_append_left _ he', hrel⟩
  back e' he' := (List.mem_append.1 he').elim (h.back e') (hlater e')

theorem append (h : Matched R es es') (h' : Matched R later later') :
    Matched R (es ++ later) (es' ++ later') where
  forth e he := by
    rcases List.mem_append.1 he with he | he
    · obtain ⟨e', he', hrel⟩ := h.forth e he
      exact ⟨e', List.mem_append_left _ he', hrel⟩
    · obtain ⟨e', he', hrel⟩ := h'.forth e he
      exact ⟨e', List.mem_append_right _ he', hrel⟩
  back e' he' := by
    rcases List.mem_append.1 he' with he' | he'
    · obtain ⟨e, he, hrel⟩ := h.back e' he'
      exact ⟨e, List.mem_append_left _ he, hrel⟩
    · obtain ⟨e, he, hrel⟩ := h'.back e' he'
      exact ⟨e, List.mem_append_right _ he, hrel⟩

end Matched

/-! ### Walks -/

/-- What keeps two walks in related states. -/
structure Lockstep (v w : Walk) (R : State → State → Prop) : Prop where
  depth : v.heuristics.maxFieldDepth = w.heuristics.maxFieldDepth
  passes : v.heuristics.maxLoopIterations = w.heuristics.maxLoopIterations
  apply (position : Nat) (instruction : Instruction) {s t : State} :
    R s t → R (v.apply position instruction s).1 (w.apply position instruction t).1
  join {s s' t t' : State} : R s t → R s' t' →
    R (s.join s' v.heuristics.maxFieldDepth) (t.join t' w.heuristics.maxFieldDepth)
  /-- A join that brings nothing new is not seen. -/
  settled_left {s stop t : State} : stop.le s v.heuristics.maxFieldDepth = true →
    (R (s.join stop v.heuristics.maxFieldDepth) t ↔ R s t)
  settled_right {s t stop : State} : stop.le t w.heuristics.maxFieldDepth = true →
    (R s (t.join stop w.heuristics.maxFieldDepth) ↔ R s t)

namespace Lockstep

theorem swap (h : Lockstep v w R) : Lockstep w v (flip R) where
  depth := h.depth.symm
  passes := h.passes.symm
  apply position instruction _ _ hs := h.apply position instruction hs
  join hs hs' := h.join hs hs'
  settled_left := h.settled_right
  settled_right := h.settled_left

section Loops

variable {pass pass' : State → Option State × List Event} {stop : State} {es : List Event}

/-- A walk that found its head again stays related to the other one, whose further passes meet
nothing that the last pass of the first has not met. -/
theorem revisit_after (h : Lockstep v w R) (hle : stop.le s v.heuristics.maxFieldDepth = true)
    (hpass : ∀ t, R s t → Option.Rel R (some stop) (pass' t).1 ∧ Matched R es (pass' t).2)
    (passes : Nat) (hs : R s t) :
    R s (w.revisit pass' passes t).1 ∧
      ∀ e' ∈ (w.revisit pass' passes t).2, ∃ e ∈ es, e.Related R e' := by
  induction passes generalizing t with
  | zero => exact ⟨hs, nofun⟩
  | succ passes ih =>
    obtain ⟨hstop, hes⟩ := hpass t hs
    obtain ⟨stop', hstop', hrel⟩ := rel_some_left hstop
    have hp : pass' t = (some stop', (pass' t).2) := Prod.ext hstop' rfl
    have hnext : R s (t.join stop' w.heuristics.maxFieldDepth) :=
      (h.settled_left hle).1 (h.join hs hrel)
    by_cases hle' : stop'.le t w.heuristics.maxFieldDepth = true
    · rw [revisit_of_le hp hle']
      exact ⟨hnext, hes.back⟩
    · rw [revisit_of_not_le hp hle']
      obtain ⟨hlast, hlater⟩ := ih hnext
      exact ⟨hlast, fun e' he' => (List.mem_append.1 he').elim (hes.back e') (hlater e')⟩

/-- Loops are in step if their passes are, though one may make more of them. -/
theorem revisit_matched (h : Lockstep v w R)
    (hpass : ∀ s t, R s t →
      Option.Rel R (pass s).1 (pass' t).1 ∧ Matched R (pass s).2 (pass' t).2)
    (passes : Nat) (hs : R s t) :
    R (v.revisit pass passes s).1 (w.revisit pass' passes t).1 ∧
      Matched R (v.revisit pass passes s).2 (w.revisit pass' passes t).2 := by
  induction passes generalizing s t with
  | zero => exact ⟨hs, .nil⟩
  | succ passes ih =>
    obtain ⟨hstop, hes⟩ := hpass s t hs
    have hleft (t : State) (ht : R s t) := hpass s t ht
    have hright (s : State) (hs : R s t) := hpass s t hs
    rcases hp : pass s with ⟨_ | stop, es⟩ <;> rcases hp' : pass' t with ⟨_ | stop', es'⟩ <;>
      rw [hp, hp'] at hstop hes
    · rw [revisit_of_none hp, revisit_of_none hp']
      exact ⟨hs, hes⟩
    · cases hstop
    · cases hstop
    · have hnext := h.join hs (Option.rel_some_some.1 hstop)
      rw [hp] at hleft
      rw [hp'] at hright
      by_cases hle : stop.le s v.heuristics.maxFieldDepth = true <;>
        by_cases hle' : stop'.le t w.heuristics.maxFieldDepth = true
      · rw [revisit_of_le hp hle, revisit_of_le hp' hle']
        exact ⟨hnext, hes⟩
      · rw [revisit_of_le hp hle, revisit_of_not_le hp' hle']
        obtain ⟨hlast, hlater⟩ := h.revisit_after hle hleft passes ((h.settled_left hle).1 hnext)
        exact ⟨(h.settled_left hle).2 hlast, hes.append_right hlater⟩
      · -- the same with the walks in the other order
        rw [revisit_of_not_le hp hle, revisit_of_le hp' hle']
        have hright' (s : State) (hs : flip R t s) :
            Option.Rel (flip R) (some stop') (pass s).1 ∧ Matched (flip R) es' (pass s).2 := by
          obtain ⟨hstop, hes⟩ := hright s hs
          obtain ⟨stop, hstop, hrel⟩ := rel_some_right hstop
          exact ⟨hstop ▸ .some hrel, hes.swap⟩
        obtain ⟨hlast, hlater⟩ := h.swap.revisit_after hle' hright' passes
          ((h.settled_right hle').1 hnext)
        exact ⟨(h.settled_right hle').2 hlast, (hes.swap.append_right hlater).swap⟩
      · rw [revisit_of_not_le hp hle, revisit_of_not_le hp' hle']
        obtain ⟨hlast, hlater⟩ := ih hnext
        exact ⟨hlast, hes.append hlater⟩

end Loops

/-- Walks of a block that start in related states end in related states, and meet the same events in
related states. -/
theorem trail_matched (h : Lockstep v w R) (body : Body) (hs : R s t) :
    Option.Rel R (v.trail body s).1 (w.trail body t).1 ∧
      Matched R (v.trail body s).2 (w.trail body t).2 := by
  induction body generalizing s t with
  | done => exact ⟨.some hs, .nil⟩
  | leave place value rest => exact ⟨.none, .singleton (.leave value hs)⟩
  | run place instruction rest ih =>
    obtain ⟨hstop, hes⟩ := ih (h.apply place.position instruction hs)
    exact ⟨hstop, (Matched.singleton (.run place.position instruction hs)).append hes⟩
  | branch place taken skipped rest ihTaken ihSkipped ihRest =>
    obtain ⟨htaken, hes⟩ := ihTaken hs
    obtain ⟨hskipped, hes'⟩ := ihSkipped hs
    have hmeet := meet_rel (fun _ _ _ _ => h.join) htaken hskipped
    simp only [trail]
    generalize v.meet (v.trail taken s).1 (v.trail skipped s).1 = met,
      w.meet (w.trail taken t).1 (w.trail skipped t).1 = met' at hmeet ⊢
    cases hmeet with
    | none => exact ⟨.none, hes.append hes'⟩
    | some hmeet =>
      obtain ⟨hstop, hlater⟩ := ihRest hmeet
      exact ⟨hstop, (hes.append hes').append hlater⟩
  | loop place body rest ihBody ihRest =>
    obtain ⟨hhead, hes⟩ := h.revisit_matched (fun _ _ hs => ihBody hs)
      v.heuristics.maxLoopIterations hs
    obtain ⟨hstop, hlater⟩ := ihRest hhead
    simp only [trail, ← h.passes]
    exact ⟨hstop, hes.append hlater⟩

/-- Walks that enter the method in related states meet the same events in related states. -/
theorem events_matched (h : Lockstep v w R) (hentry : R v.entry w.entry) (body : Body) :
    Matched R (v.events body) (w.events body) := by
  have hmatched := h.trail_matched body hentry
  unfold events
  generalize v.trail body v.entry = trailed, w.trail body w.entry = trailed' at hmatched ⊢
  obtain ⟨stop?, es⟩ := trailed
  obtain ⟨stop?', es'⟩ := trailed'
  obtain ⟨hstop, hes⟩ := hmatched
  cases hstop with
  | none => exact hes
  | some hstop => exact hes.append (.singleton (.leave none hstop))

end Lockstep

/-- Instructions and joins keep states related where operations on frames do. -/
theorem lockstep_related {r : FrameSet → FrameSet → Prop} (hr : FrameSet.ClosedRel r) (w : Walk) :
    Lockstep w w (State.Related r) where
  depth := rfl
  passes := rfl
  apply position instruction _ _ hs := w.apply_related hr hs position instruction
  join hs hs' := hs.join hr hs' _
  settled_left := State.related_join_left_of_le
  settled_right := State.related_join_right_of_le

end Walk

/-! ### What is handed back -/

namespace Node

variable {depth : Nat}

theorem overlay_empty (t : Node) : overlay depth ∅ t = t := by
  induction t with
  | bare own => exact congrArg bare (FrameSet.join_eq_left (FrameSet.empty_le own))
  | field name child rest ihChild ihRest => exact congrArg₂ (field name) ihChild ihRest

theorem empty_le (t : Node) : le depth (bare ∅) t = true := by
  induction t with
  | bare own => rfl
  | field name child rest ihChild ihRest =>
    exact Bool.and_eq_true_iff.2 ⟨ihChild, ihRest⟩

end Node

namespace TaintTree

variable {depth : Nat}

theorem empty_join (t : TaintTree) : (∅ : TaintTree).join t depth = t := by
  have hroot : Node.overlay depth ∅ t.root = t.root := Node.overlay_empty t.root
  cases t
  unfold join
  congr 1

theorem join_empty (t : TaintTree) : t.join ∅ depth = t := join_eq_left (Node.empty_le t.root)

/-- A question about trees that a join answers with yes if and only if one of its sides does. -/
structure Test (depth : Nat) where
  passes : TaintTree → Prop
  passes_join : ∀ t u, passes (t.join u depth) ↔ passes t ∨ passes u

namespace Test

def reaches (depth : Nat) (names : List String) : Test depth where
  passes t := t.root.Reaches names
  passes_join _ _ := Node.reaches_join

/-- Whether some frames at a chain of fields have a property that joins of frames are asked for one
by one. -/
def atChain (depth : Nat) (names : List String) (P : FrameSet → Prop)
    (hP : ∀ s t : FrameSet, P (s.join t) ↔ P s ∨ P t) : Test depth where
  passes t := P (t.root.cover depth names)
  passes_join t u := by rw [join, Node.cover_join, hP]

end Test

end TaintTree

/-- The tree of an origin in a join is the join of its trees. -/
theorem State.treeOf_join (s t : State) (o : Origin) (depth : Nat) :
    (s.join t depth).treeOf o = (s.treeOf o).join (t.treeOf o) depth := by
  unfold treeOf join tree?
  rw [OrdMap.get?_union]
  cases s.taint.get? o with
  | none =>
    rw [Option.merge_none_left]
    exact (TaintTree.empty_join _).symm
  | some tree =>
    cases t.taint.get? o with
    | none => exact (TaintTree.join_empty tree).symm
    | some tree' => rfl

namespace Walk

def treeAt (w : Walk) (g : Gathered) : Root → TaintTree
  | .result => g.returned
  | .argument index => (g.exit.getD ∅).treeOf (Location.parameter w.method.id index).origin

def treeAt? (w : Walk) (root : Root) : Event → Option TaintTree
  | .run _ _ _ => none
  | .leave value s =>
    match root with
    | .result => value.map (s.readRegister · w.heuristics.maxFieldDepth)
    | .argument index => some (s.treeOf (Location.parameter w.method.id index).origin)

theorem treeAt_record (w : Walk) (g : Gathered) (root : Root) (e : Event) :
    w.treeAt (w.record g e) root =
      (w.treeAt g root).join ((w.treeAt? root e).getD ∅) w.heuristics.maxFieldDepth := by
  cases e with
  | run position instruction s =>
    rw [treeAt?, Option.getD_none, TaintTree.join_empty]
    cases root <;> rfl
  | leave value s =>
    cases root with
    | result =>
      cases value with
      | none => exact (TaintTree.join_empty _).symm
      | some register => rfl
    | argument index =>
      have hexit : (w.record g (.leave value s)).exit =
          some (g.exit.elim s (State.join · s w.heuristics.maxFieldDepth)) := by
        cases value <;> rfl
      rw [treeAt, hexit, treeAt?, treeAt]
      cases g.exit with
      | none => exact (TaintTree.empty_join _).symm
      | some own => exact State.treeOf_join own s _ _

/-- What is handed back passes a test if and only if something does that an event adds. -/
theorem passes_treeAt {w : Walk} (q : TaintTree.Test w.heuristics.maxFieldDepth) (root : Root)
    (body : Body) :
    q.passes (w.treeAt (w.gather body) root) ↔
      q.passes ∅ ∨ ∃ e ∈ w.events body, q.passes ((w.treeAt? root e).getD ∅) := by
  have hstep (g : Gathered) (e : Event) : q.passes (w.treeAt (w.record g e) root) ↔
      q.passes (w.treeAt g root) ∨ q.passes ((w.treeAt? root e).getD ∅) := by
    rw [treeAt_record, q.passes_join]
  have hstart : w.treeAt ∅ root = ∅ := by cases root <;> rfl
  rw [gather_eq, foldl_iff (P := fun g => q.passes (w.treeAt g root)) hstep, hstart]

section Related

variable {r : FrameSet → FrameSet → Prop} (hr : FrameSet.ClosedRel r) {v w : Walk}
  (hid : v.method.id = w.method.id)
  (hdepth : v.heuristics.maxFieldDepth = w.heuristics.maxFieldDepth)

include hr hid hdepth

theorem Event.Related.treeAt {e e' : Event} (h : e.Related (State.Related r) e') (root : Root) :
    TaintTree.Related r ((v.treeAt? root e).getD ∅) ((w.treeAt? root e').getD ∅) := by
  cases h with
  | run position instruction hs => exact .refl hr ∅
  | leave value hs =>
    cases root with
    | argument index =>
      simp only [treeAt?, hid]
      exact hs.treeOf hr _
    | result =>
      cases value with
      | none => exact .refl hr ∅
      | some register =>
        simp only [treeAt?, hdepth]
        exact hs.readRegister hr register _

variable {body : Body} (hes : Matched (State.Related r) (v.events body) (w.events body))
  (q : TaintTree.Test v.heuristics.maxFieldDepth) (q' : TaintTree.Test w.heuristics.maxFieldDepth)

include hes

/-- What is handed back passes a test if that of the other walk passes one that related trees pass
the test after. -/
theorem treeAt_forth (hq : ∀ t t', TaintTree.Related r t t' → q.passes t → q'.passes t')
    (root : Root) (h : q.passes (v.treeAt (v.gather body) root)) :
    q'.passes (w.treeAt (w.gather body) root) := by
  rcases passes_treeAt q root body |>.1 h with hempty | ⟨e, he, hpasses⟩
  · exact (passes_treeAt q' root body).2 (.inl (hq ∅ ∅ (.refl hr ∅) hempty))
  · obtain ⟨e', he', hrel⟩ := hes.forth e he
    have htree := Event.Related.treeAt hr hid hdepth hrel root
    exact (passes_treeAt q' root body).2 (.inr ⟨e', he', hq _ _ htree hpasses⟩)

theorem treeAt_back (hq : ∀ t t', TaintTree.Related r t t' → q'.passes t' → q.passes t)
    (root : Root) (h : q'.passes (w.treeAt (w.gather body) root)) :
    q.passes (v.treeAt (v.gather body) root) := by
  rcases passes_treeAt q' root body |>.1 h with hempty | ⟨e', he', hpasses⟩
  · exact (passes_treeAt q root body).2 (.inl (hq ∅ ∅ (.refl hr ∅) hempty))
  · obtain ⟨e, he, hrel⟩ := hes.back e' he'
    have htree := Event.Related.treeAt hr hid hdepth hrel root
    exact (passes_treeAt q root body).2 (.inr ⟨e, he, hq _ _ htree hpasses⟩)

end Related

end Walk

end TaintFlow
