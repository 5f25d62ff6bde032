import TaintFlow.Proofs.ReadPaths
import TaintFlow.Proofs.Trail
import TaintFlow.Proofs.Writes

/-!
What a call delivers. Every effect of a callee's model arrives in the state after the call: what it
generates at a port is read at the port, and copies of what reaches the input of a propagation are
read at its output, although outputs overlap, are cut, merged and folded on their way. Nothing else
arrives. What is read after a call was there before, or is an effect on what was there before, so no
propagation copies what another one has brought (`Walk.apply_call_delivers`).
-/

namespace TaintFlow

variable {depth : Nat} {f : Frame}

/-! ### Reading what was written -/

namespace TaintTree

variable {value : TaintTree} {path path' : Path}

/-- What a tree has at a path is read below the path that it is written to, however that is cut. -/
theorem exists_lands_below (hf : f.isArgument = false)
    (h : (value.subtree path' depth).collect.Has f) (path : Path) :
    ∃ names, value.Lands path depth ((path ++ path').fieldsBefore ++ names) f := by
  obtain ⟨names, hnames⟩ := (has_collect_subtree_iff hf).1 h
  obtain ⟨cut, hcut, hshort⟩ := path.exists_fieldsBefore depth
  obtain ⟨more, hmore, hbehind⟩ := path.exists_fieldsBefore_append path'
  suffices hholds : ∃ names, (value.limit (depth - (path.normalize depth).length)).root.Holds
      (cut ++ more ++ names) f by
    obtain ⟨names, hnames⟩ := hholds
    exact ⟨names, cut ++ more ++ names, by simp only [hmore, hcut, List.append_assoc], hnames⟩
  rcases hshort with rfl | hlength
  · rcases hbehind with rfl | rfl
    · exact ⟨_, holds_limit hnames _⟩
    · exact ⟨names, holds_limit hnames _⟩
  · -- the tree is folded into one node, which has all of it everywhere
    refine ⟨[], ?_⟩
    have hbare : (value.limit 0).root = .bare value.collect := Node.limit_zero value.root
    rw [hlength, Nat.sub_self, hbare]
    exact Node.holds_bare.2 (Node.has_collect_of_holds hnames)

theorem lands_normalize {names : List String} :
    value.Lands (path.normalize depth) depth names f ↔ value.Lands path depth names f := by
  rw [Lands, Lands, Path.normalize_normalize]

end TaintTree

namespace State

variable {s : State} {l : Location} {path : Path}

theorem has_collect_readAt (hf : f.isArgument = false) :
    (s.readAt l path depth).collect.Has f ↔
      ∃ names, (s.treeOf l.origin).root.Holds ((l.path ++ path).fieldsBefore ++ names) f := by
  rw [← Node.has_collect_subtree_iff (s.treeOf l.origin).ordered hf,
    Node.has_collect ((s.treeOf l.origin).ordered.subtree depth _)]
  exact (Node.has_collect (TaintTree.ordered _)).trans (exists_congr fun _ => holds_readAt hf)

end State

/-! ### Effects -/

namespace Propagation

variable {p : Propagation} {limit : Nat} {own : Frame}

def Admits (p : Propagation) (own : Frame) : Prop :=
  ∀ kind, own.kind? = some kind → kind ∉ p.sanitizers

/-- Sources are copied with more transforms, unless they are sanitized. -/
theorem copy_eq_some_iff (hown : own.isArgument = false) :
    (p.copy limit own ∅).map Prod.fst = some f ↔
      p.Admits own ∧ own.withTransforms p.transforms limit = f := by
  have hadmits : own.kind?.any p.sanitizers.contains = true ↔ ¬ p.Admits own := by
    unfold Admits
    cases own.kind? with
    | none => simp
    | some kind => simp [Membership.mem]
  unfold copy
  simp only [hown, Bool.false_eq_true, if_false]
  split
  · next hany => simp [hadmits.1 hany]
  · next hany =>
    rw [hadmits, not_not] at hany
    simp [hany]

end Propagation

namespace Call

variable {h : Heuristics} {c : Call} {model : Model} {s : State} {register : String} {port : Port}
  {root : Root} {l : Location} {path : Path}

/-- What the model of a callee brings to a port: what it generates there, and copies of what reaches
the inputs of its propagations to the port. -/
def Brings (h : Heuristics) (c : Call) (model : Model) (s : State) (port : Port) (f : Frame) :
    Prop :=
  (∃ frames, model.generations.get? port = some frames ∧ frames.Has f) ∨
    ∃ p ∈ model.propagations, p.output = port ∧ ∃ own,
      (c.reaching h s (p.input.normalize h.maxFieldDepth)).Has own ∧ p.Admits own ∧
        own.withTransforms p.transforms h.maxTransformLength = f

/-- A frame is read at a port after a call: below the register of the result, or below every
location of the argument. -/
def ReadsAt (h : Heuristics) (c : Call) (register : String) (after : State) (port : Port)
    (f : Frame) : Prop :=
  match port.root with
  | .result => after.Reads register port.path h.maxFieldDepth f
  | .argument index => ∀ L, c.arguments[index]? = some L → ∀ l ∈ L,
    (after.readAt l port.path h.maxFieldDepth).collect.Has f

def WritesTo (c : Call) (root : Root) (origin : Origin) : Prop :=
  match root with
  | .result => origin = c.fresh.origin
  | .argument index => ∃ L, c.arguments[index]? = some L ∧ ∃ l ∈ L, l.origin = origin

/-- No argument is below what the call allocates for its result. -/
def ResultApart (c : Call) : Prop := ∀ L ∈ c.arguments, ∀ l ∈ L, l.origin ≠ c.fresh.origin

/-- What a model brings to a port lands there. -/
theorem Brings.exists_lands (hf : f.isArgument = false) (hbrings : c.Brings h model s port f) :
    ∃ value : TaintTree, value.collect.Has f ∧
      ∀ names, value.Lands port.path h.maxFieldDepth names f →
        (c.spread h model s).Holds port.root names f := by
  rcases hbrings with ⟨frames, hframes, hhas⟩ | ⟨p, hp, rfl, own, hown, hadmits, hcopy⟩
  · refine ⟨generated h c port frames, Node.has_collect_bare.2 (FrameSet.has_addStep.2 hhas),
      fun names hlands => (holds_spread hf).2 (.inl ?_)⟩
    exact ⟨(port, frames), OrdMap.get?_eq_some_iff.1 hframes, rfl,
      TaintTree.lands_normalize.2 hlands⟩
  · have hsource : own.isArgument = false := by rw [← hcopy] at hf; exact hf
    obtain ⟨L, hL, hread⟩ := has_reaching.1 hown
    obtain ⟨names, hnames⟩ := (Node.has_collect (TaintTree.ordered _)).1 hread
    have hcopied : (copied h s p L).root.Holds names f :=
      holds_copied.2 ⟨own, hnames, (Propagation.copy_eq_some_iff hsource).2 ⟨hadmits, hcopy⟩⟩
    refine ⟨copied h s p L, Node.has_collect_of_holds hcopied,
      fun names hlands => (holds_spread hf).2 (.inr ?_)⟩
    exact ⟨p, hp, L, hL, rfl, TaintTree.lands_normalize.2 hlands⟩

/-- What is handed back is brought to some port. -/
theorem exists_brings (hf : f.isArgument = false)
    (hcollect : ((c.outputs h model s).getD root ∅).collect.Has f) :
    ∃ port, port.root = root ∧ c.Brings h model s port f := by
  obtain ⟨names, hnames⟩ := exists_holds_spread hcollect
  rcases (holds_spread hf).1 hnames with ⟨e, he, hroot, hlands⟩ | ⟨p, hp, L, hL, hroot, hlands⟩
  · exact ⟨e.1, hroot, .inl ⟨e.2, OrdMap.get?_eq_some_iff.2 he,
      FrameSet.has_addStep.1 (Node.has_collect_bare.1 hlands.has_collect)⟩⟩
  · obtain ⟨names, hnames⟩ := (Node.has_collect (TaintTree.ordered _)).1 hlands.has_collect
    obtain ⟨own, hown, hcopy⟩ := holds_copied.1 hnames
    have hsource : own.isArgument = false := by rw [Propagation.isArgument_copy hcopy, hf]
    exact ⟨p.output, hroot, .inr ⟨p, hp, rfl, own,
      has_reaching.2 ⟨L, hL, Node.has_collect_of_holds hown⟩,
      (Propagation.copy_eq_some_iff hsource).1 hcopy⟩⟩

/-- What reaches a port reaches its normal form. -/
theorem has_reaching_normalize (hf : f.isArgument = false)
    (hreaching : (c.reaching h s port).Has f) :
    (c.reaching h s (port.normalize h.maxFieldDepth)).Has f := by
  obtain ⟨L, hL, hread⟩ := has_reaching.1 hreaching
  exact has_reaching.2 ⟨L, hL,
    State.has_collect_readAll_of_prefix (Path.normalize_isPrefix port.path _) hf hread⟩

/-! ### The state after a call -/

/-- What lands at a port is read there after the call. -/
theorem readsAt_run {value : TaintTree} (hapart : c.ResultApart) (hf : f.isArgument = false)
    (hvalue : value.collect.Has f)
    (hlands : ∀ names, value.Lands port.path h.maxFieldDepth names f →
      (c.spread h model s).Holds port.root names f) :
    c.ReadsAt h register (c.run h (.modeled model) (some register) s).1 port f := by
  have hread : (((c.outputs h model s).getD port.root ∅).subtree port.path
      h.maxFieldDepth).collect.Has f := by
    have hroot : (value.subtree [] h.maxFieldDepth).collect.Has f := hvalue
    obtain ⟨names, hnames⟩ := TaintTree.exists_lands_below hf hroot port.path
    rw [List.append_nil] at hnames
    exact (TaintTree.has_collect_subtree_iff hf).2
      ⟨names, sub_outputs port.root _ f hf (hlands _ hnames)⟩
  rw [run_modeled]
  unfold ReadsAt
  cases hroot : port.root with
  | result =>
    rw [hroot] at hread
    exact reads_bindResult hf (TaintTree.has_collect_subtree (TaintTree.sub_limit _ _) hf hread)
  | argument index =>
    intro L hL l hl
    obtain ⟨names, hnames⟩ := TaintTree.exists_lands_below hf hread (l.path ++ [])
    rw [List.append_nil] at hnames
    refine (State.has_collect_readAt hf).2 ⟨names, ?_⟩
    rw [treeOf_bindResult, if_neg (hapart L (List.mem_of_getElem? hL) l hl), written,
      holds_writeArguments hf]
    rw [hroot] at hnames
    exact .inr ⟨.argument index, L, hL, l, hl, rfl, by rwa [List.append_nil]⟩

/-- An effect is read at its port after the call, and at the normal form of the port. -/
theorem Brings.readsAt_run (hapart : c.ResultApart) (hf : f.isArgument = false)
    (hbrings : c.Brings h model s port f) :
    c.ReadsAt h register (c.run h (.modeled model) (some register) s).1 port f ∧
      c.ReadsAt h register (c.run h (.modeled model) (some register) s).1
        (port.normalize h.maxFieldDepth) f := by
  obtain ⟨value, hvalue, hlands⟩ := hbrings.exists_lands hf
  refine ⟨Call.readsAt_run hapart hf hvalue hlands, Call.readsAt_run hapart hf hvalue ?_⟩
  exact fun names hnames => hlands names (TaintTree.lands_normalize.1 hnames)

/-- What is read after a call was read there before, unless the call has allocated the location, or
it is an effect on the state before the call. -/
theorem read_or_brings (hf : f.isArgument = false)
    (hread : ((c.run h (.modeled model) (some register) s).1.readAt l path
      h.maxFieldDepth).collect.Has f) :
    (l.origin ≠ c.fresh.origin ∧ (s.readAt l path h.maxFieldDepth).collect.Has f) ∨
      ∃ port, c.WritesTo port.root l.origin ∧ c.Brings h model s port f := by
  rw [run_modeled, State.has_collect_readAt hf] at hread
  obtain ⟨names, hnames⟩ := hread
  rw [treeOf_bindResult] at hnames
  split at hnames
  · next hfresh =>
    obtain ⟨port, hroot, hbrings⟩ := exists_brings hf
      ((Node.has_collect_limit (TaintTree.ordered _)).1 (Node.has_collect_of_holds hnames))
    exact .inr ⟨port, by rw [hroot]; exact hfresh, hbrings⟩
  · next hfresh =>
    rcases (holds_writeArguments hf _ _).1 hnames with hbefore | ⟨root, L, hL, l', hl', ho, hlands⟩
    · exact .inl ⟨hfresh, (State.has_collect_readAt hf).2 ⟨names, hbefore⟩⟩
    · obtain ⟨port, hroot, hbrings⟩ := exists_brings hf hlands.has_collect
      refine .inr ⟨port, ?_, hbrings⟩
      obtain ⟨index, rfl, -⟩ := argument?_eq_some hL
      rw [hroot]
      exact ⟨L, hL, l', hl', ho⟩

end Call

namespace Walk

variable {w : Walk} {callee : String} {model : Model} {position : Nat} {args : List String}
  {s : State}

/-- A call delivers every effect of its callee's model, and nothing else. What the model generates
at a port is read at the port after the call. A source that reaches the input of a propagation, with
a kind that is not sanitized, is read at the output with the transforms of the propagation. That
ports are as they are given or in normal form makes no difference. What is read after the call was
read at the same place before, or is one of these effects on the state before the call. -/
theorem apply_call_delivers (hmodel : w.summaries callee = .modeled model)
    (hapart : (w.callAt position callee args s).ResultApart) (register : String) :
    let h := w.heuristics
    let c := w.callAt position callee args s
    let after := (w.apply position (.call callee args (some register)) s).1
    (∀ port frames f, model.generations.get? port = some frames → frames.Has f →
        f.isArgument = false →
          c.ReadsAt h register after port f ∧
            c.ReadsAt h register after (port.normalize h.maxFieldDepth) f) ∧
      (∀ p ∈ model.propagations, ∀ f, f.isArgument = false →
        (c.reaching h s p.input).Has f ∨
          (c.reaching h s (p.input.normalize h.maxFieldDepth)).Has f →
        (∀ kind, f.kind? = some kind → kind ∉ p.sanitizers) →
          c.ReadsAt h register after p.output
              (f.withTransforms p.transforms h.maxTransformLength) ∧
            c.ReadsAt h register after (p.output.normalize h.maxFieldDepth)
              (f.withTransforms p.transforms h.maxTransformLength)) ∧
      ∀ l path f, f.isArgument = false → (after.readAt l path h.maxFieldDepth).collect.Has f →
        (l.origin ≠ c.fresh.origin ∧ (s.readAt l path h.maxFieldDepth).collect.Has f) ∨
          ∃ port, c.WritesTo port.root l.origin ∧ c.Brings h model s port f := by
  intro h c after
  have hafter : after = (c.run h (.modeled model) (some register) s).1 := by
    show (c.run h (w.summaries callee) (some register) s).1 = _
    rw [hmodel]
  rw [hafter]
  refine ⟨fun port frames f hframes hhas hf => ?_, fun p hp f hf hinput hadmits => ?_,
    fun l path f hf hread => Call.read_or_brings hf hread⟩
  · have hbrings : c.Brings h model s port f := .inl ⟨frames, hframes, hhas⟩
    exact hbrings.readsAt_run hapart hf
  · have hreaching := hinput.elim (Call.has_reaching_normalize hf) id
    have hbrings : c.Brings h model s p.output
        (f.withTransforms p.transforms h.maxTransformLength) :=
      .inr ⟨p, hp, rfl, f, hreaching, hadmits, rfl⟩
    exact hbrings.readsAt_run hapart hf

def transforming : Propagation :=
  ⟨.argument 0, ⟨.result, [.field "b"]⟩, [⟨1⟩], ∅, false, ∅⟩

/-- A callee also generates a kind in another field, and its callers merge both. -/
def merging : Walk where
  method := ⟨⟨0⟩, "merging", [], none, none⟩
  heuristics := { maxOutputPathLeaves := 1 }
  summaries _ :=
    let generating := (∅ : Model).addGeneration ⟨.result, [.field "a"]⟩ (.ofKind ⟨0⟩) ∅
    .modeled (generating.addPropagation transforming)

def kindHeld : State :=
  ((∅ : State).bind "x" (OrdSet.ofList [.instruction ⟨0⟩ 0])).writeAt (.instruction ⟨0⟩ 0) []
    (.leaf (.singleton (.ofKind ⟨2⟩) ∅)) true 4

theorem apply_call_delivers_merging :
    (merging.callAt 1 "both" ["x"] kindHeld).ResultApart ∧
      (merging.apply 1 (.call "both" ["x"] (some "y")) kindHeld).1.Reads "y" [.field "a"] 4
        (.ofKind ⟨0⟩) ∧
      (merging.apply 1 (.call "both" ["x"] (some "y")) kindHeld).1.Reads "y" [.field "b"] 4
        ⟨.kind ⟨2⟩, [⟨1⟩], ∅⟩ := by
  have hapart : (merging.callAt 1 "both" ["x"] kindHeld).ResultApart := by
    intro L hL l hl
    obtain rfl : L = OrdSet.ofList [.instruction ⟨0⟩ 0] := List.mem_singleton.1 hL
    obtain rfl := List.mem_singleton.1 (OrdSet.mem_ofList.1 hl)
    decide
  obtain ⟨hgenerated, hcopied, -⟩ := apply_call_delivers rfl hapart "y"
  exact ⟨hapart,
    (hgenerated ⟨.result, [.field "a"]⟩ (.singleton (.ofKind ⟨0⟩) ∅) _ rfl (by decide) rfl).1,
    (hcopied transforming (by decide) (.ofKind ⟨2⟩) rfl (.inl (by decide))
      fun _ _ => OrdSet.not_mem_empty _).1⟩

end Walk

end TaintFlow
