import TaintFlow.Proofs.Inference
import TaintFlow.Proofs.ReadPaths

/-!
What thinned out input paths do at a caller. A propagation copies what its input path holds with all
fields. Where a longer input path is replaced by a shorter one, a source is therefore copied with
the segments that were cut between the output path and the fields below it: nothing is lost, but
what was read below the output path is read below these segments (`Call.reads_thinned`).
-/

namespace TaintFlow

open Node (Sub)

variable {depth : Nat} {f : Frame}

/-! ### Reading at paths -/

namespace Path

/-- Where a source that was read at a path is read once some segments are cut off its input path. -/
def movedBelow (path output cut : Path) : Path :=
  if output <+: path ∧ output ≠ path then output ++ cut ++ path.drop output.length else path

end Path

namespace Node

variable {t t' : Node} {names : List String}

/-- What is held further down stays further down when both trees are folded. -/
theorem Holds.limit_below {fields : List String} (ht : t.Ordered) (ht' : t'.Ordered)
    (hbelow : ∀ names, t.Holds names f → t'.Holds (fields ++ names) f)
    (h : (Node.limit depth t).Holds names f) : (Node.limit depth t').Holds (fields ++ names) f := by
  rw [holds_limit ht] at h
  split at h
  · exact (hbelow names h).limit ht' depth
  · next hlength =>
    obtain ⟨rest, hrest⟩ := h
    have hheld := hbelow _ hrest
    rw [← List.append_assoc] at hheld
    -- the fields that are kept are a beginning of those at which it is held
    have hkept : (fields ++ names).take depth <+: fields ++ names.take depth := by
      refine List.prefix_of_prefix_length_le (List.take_prefix _ _)
        ((List.prefix_append_right_inj fields).2 (List.take_prefix depth names)) ?_
      simp only [List.length_take, List.length_append]
      omega
    obtain ⟨more, hmore⟩ := hkept
    rw [holds_limit ht', if_neg (by rw [List.length_append]; omega)]
    exact ⟨more ++ rest, by rwa [← List.append_assoc, hmore]⟩

end Node

namespace TaintTree

variable {t : TaintTree} {names rest : List String} {path : Path}

/-- A source that is read at a path and held below an output is read at the moved path once some
fields come between. -/
theorem has_collect_movedBelow {output cut : Path} (hf : f.isArgument = false)
    (houtput : .wildcard ∉ output) (hcut : .wildcard ∉ cut)
    (hfields : path.fieldsBefore ++ names = fieldNames output ++ rest)
    (hholds : t.root.Holds (fieldNames output ++ (fieldNames cut ++ rest)) f) :
    (t.subtree (path.movedBelow output cut) depth).collect.Has f := by
  rw [has_collect_subtree_iff hf]
  unfold Path.movedBelow
  split
  · next hbelow =>
    obtain ⟨⟨below, rfl⟩, -⟩ := hbelow
    rw [Path.fieldsBefore_append houtput, List.append_assoc, List.append_cancel_left_eq] at hfields
    refine ⟨names, ?_⟩
    rw [List.drop_left, List.append_assoc, Path.fieldsBefore_append houtput,
      Path.fieldsBefore_append hcut, List.append_assoc, List.append_assoc, hfields]
    exact hholds
  · next hnot =>
    have habove : path.fieldsBefore <+: fieldNames output := by
      rcases List.prefix_or_prefix_of_prefix ⟨names, hfields⟩ (List.prefix_append _ rest) with
        habove | hbelow
      · exact habove
      · -- the path is not below the output, so it can only be the output
        have hbegins : output <+: path := by
          rw [← Path.map_fieldNames houtput]
          exact (hbelow.map Segment.field).trans path.map_fieldsBefore_isPrefix
        have hsame : output = path := by
          by_contra hne
          exact hnot ⟨hbegins, hne⟩
        have hfieldsOut := Path.fieldsBefore_append houtput []
        rw [List.append_nil, Path.fieldsBefore_nil, List.append_nil] at hfieldsOut
        have hbefore : path.fieldsBefore = fieldNames output := hsame ▸ hfieldsOut
        exact hbefore ▸ List.prefix_refl _
    obtain ⟨more, hmore⟩ := habove
    rw [← hmore, List.append_assoc] at hholds
    exact ⟨_, hholds⟩

end TaintTree

/-! ### Propagations from longer and shorter paths -/

namespace MethodAnalysis

def Route.propagation (route : Route) (path : Path) (features : OrdSet String) : Propagation where
  input := ⟨.argument route.parameter, path⟩
  output := route.output
  transforms := route.transforms
  sanitizers := route.sanitizers
  aliasing := false
  features

/-- The propagations of a route from all its input paths, none of them replaced. -/
def propagationsApart (route : Route) (inputs : Inputs) : List Propagation :=
  inputs.entries.map fun e => route.propagation e.1 e.2

end MethodAnalysis

namespace Call

open MethodAnalysis

variable {h : Heuristics} {c : Call} {s : State} {p p' : Propagation} {L : AliasSet}
  {names : List String} {root : Root}

def spreadBy (h : Heuristics) (c : Call) (s : State) (ps : List Propagation) (root : Root) :
    TaintTree :=
  OrdMap.getD (ps.foldl (c.propagate h s) ∅) root ∅

def ReadsBy (h : Heuristics) (c : Call) (s : State) (ps : List Propagation) (root : Root)
    (path : Path) (f : Frame) : Prop :=
  ((c.spreadBy h s ps root).subtree path h.maxFieldDepth).collect.Has f

instance (h : Heuristics) (c : Call) (s : State) (ps : List Propagation) (root : Root)
    (path : Path) (f : Frame) : Decidable (c.ReadsBy h s ps root path f) :=
  inferInstanceAs (Decidable (FrameSet.Has _ f))

theorem holds_spreadBy (hf : f.isArgument = false) {ps : List Propagation} :
    (c.spreadBy h s ps root).root.Holds names f ↔
      ∃ p ∈ ps, ∃ L, c.argument? p.input.root = some L ∧ p.output.root = root ∧
        (copied h s p L).Lands (p.output.normalize h.maxFieldDepth).path h.maxFieldDepth
          names f := by
  rw [spreadBy, ← Outputs.Holds, foldl_iff (P := fun o : Outputs => o.Holds root names f)
    (holds_propagate hf)]
  exact or_iff_right Outputs.not_holds_empty

/-- What is copied from a path is copied from above it, below the fields that are cut off. -/
theorem holds_copied_above {cut : Path} (hf : f.isArgument = false)
    (hinput : p.input.path.normalize h.maxFieldDepth =
      p'.input.path.normalize h.maxFieldDepth ++ cut)
    (htransforms : p.transforms = p'.transforms) (hsanitizers : p.sanitizers = p'.sanitizers)
    (hholds : (copied h s p L).root.Holds names f) :
    (copied h s p' L).root.Holds (TaintTree.fieldNames cut ++ names) f := by
  obtain ⟨own, hown, hcopy⟩ := holds_copied.1 hholds
  have hsource : own.isArgument = false := by rw [Propagation.isArgument_copy hcopy, hf]
  have hcut : .wildcard ∉ cut := fun hmem =>
    Path.wildcard_not_mem_normalize p.input.path h.maxFieldDepth
      (hinput ▸ List.mem_append_right _ hmem)
  have hpath : (p.input.normalize h.maxFieldDepth).path =
      (p'.input.normalize h.maxFieldDepth).path ++ cut := hinput
  obtain ⟨l, hl, hread⟩ := (State.holds_readAll hsource).1 hown
  rw [hpath, State.holds_readAt hsource, ← List.append_assoc, Node.holds_subtree_append hsource,
    Node.holds_subtree_fields hsource hcut] at hread
  rw [Propagation.copy_congr (by rw [htransforms]) hsanitizers] at hcopy
  exact holds_copied.2 ⟨own, (State.holds_readAll hsource).2 ⟨l, hl,
    (State.holds_readAt hsource).2 hread⟩, hcopy⟩

/-- A source that is read at a path of what a route hands back comes from one of its input paths,
and is read there also if the input paths are thinned out, unless the path goes below the output of
the route. Then the segments that were cut off the input path come between the output and the
rest. -/
theorem reads_thinned {limit : Nat} {route : Route} {inputs : Inputs} {q : Path}
    (hf : f.isArgument = false)
    (hread : c.ReadsBy h s (propagationsApart route inputs) route.output.root q f) :
    ∃ path features, inputs.get? path = some features ∧
      c.ReadsBy h s [route.propagation path features] route.output.root q f ∧
      ∃ cut, path.normalize h.maxFieldDepth =
          (standIn limit inputs path).normalize h.maxFieldDepth ++ cut ∧
        c.ReadsBy h s (propagations limit route inputs) route.output.root
          (q.movedBelow (route.output.path.normalize h.maxFieldDepth) cut) f := by
  obtain ⟨names, hnames⟩ := (TaintTree.has_collect_subtree_iff hf).1 hread
  obtain ⟨p, hp, L, hL, hroot, rest, hfields, hrest⟩ := (holds_spreadBy hf).1 hnames
  obtain ⟨⟨path, features⟩, hpath, rfl⟩ := List.mem_map.1 hp
  have hshorter : standIn limit inputs path <+: path := standIn_prefix limit inputs path
  obtain ⟨cut, hcut⟩ := Path.normalize_isPrefix_of hshorter h.maxFieldDepth
  refine ⟨path, features, OrdMap.get?_eq_some_iff.2 hpath, ?_, cut, hcut.symm, ?_⟩
  · exact (TaintTree.has_collect_subtree_iff hf).2 ⟨names, (holds_spreadBy hf).2
      ⟨_, List.mem_singleton_self _, L, hL, hroot, rest, hfields, hrest⟩⟩
  obtain ⟨p', hp', hinput⟩ :=
    exists_mem_propagations limit route (OrdMap.get?_eq_some_iff.2 hpath)
  obtain ⟨-, houtput, htransforms, hsanitizers, hargument⟩ := mem_propagations hp'
  have hnormal := Path.normalize_normalize route.output.path h.maxFieldDepth
  simp only [Route.propagation, Port.normalize, hnormal] at hfields hrest
  -- the source lands below the same output, with the fields that are cut in between
  have hthinned : (c.spreadBy h s (propagations limit route inputs) route.output.root).root.Holds
      (TaintTree.fieldNames (route.output.path.normalize h.maxFieldDepth) ++
        (TaintTree.fieldNames cut ++ rest)) f := by
    refine (holds_spreadBy hf).2 ⟨p', hp', L, by rw [hargument]; exact hL, by rw [houtput],
      TaintTree.fieldNames cut ++ rest, ?_, ?_⟩
    · rw [houtput, Port.normalize, hnormal]
    · rw [houtput, Port.normalize, hnormal]
      refine Node.Holds.limit_below (TaintTree.ordered _) (TaintTree.ordered _)
        (fun names hholds => ?_) hrest
      exact holds_copied_above hf (by rw [hinput]; exact hcut.symm) htransforms.symm
        hsanitizers.symm hholds
  refine TaintTree.has_collect_movedBelow hf (Path.wildcard_not_mem_normalize _ _) (fun hmem => ?_)
    hfields hthinned
  exact Path.wildcard_not_mem_normalize path h.maxFieldDepth
    (hcut ▸ List.mem_append_right _ hmem)

/-- Five fields of a parameter, one more than are told apart by default. -/
def fiveFields : Inputs :=
  OrdMap.ofList (fun features _ => features)
    (["a", "b", "c", "d", "e"].map fun name => ([.field name], ∅))

def toResult : Route := ⟨0, .result, [], ∅⟩

def fieldHeld : State :=
  (∅ : State).writeAt (.instruction ⟨0⟩ 0) [.field "a"] (.leaf (.singleton (.ofKind ⟨0⟩) ∅)) false 4

def handingOver : Call :=
  ⟨"main", ⟨⟨0⟩, 1⟩, "pick", [OrdSet.ofList [.instruction ⟨0⟩ 0]]⟩

theorem reads_thinned_fiveFields :
    handingOver.ReadsBy {} fieldHeld (propagationsApart toResult fiveFields) .result [.field "h"]
      (.ofKind ⟨0⟩) ∧
    ∃ path features, fiveFields.get? path = some features ∧
      handingOver.ReadsBy {} fieldHeld [toResult.propagation path features] .result [.field "h"]
        (.ofKind ⟨0⟩) ∧
      ∃ cut, path.normalize 4 = (standIn 4 fiveFields path).normalize 4 ++ cut ∧
        handingOver.ReadsBy {} fieldHeld (propagations 4 toResult fiveFields) .result
          (Path.movedBelow [.field "h"] [] cut) (.ofKind ⟨0⟩) :=
  have hread : handingOver.ReadsBy {} fieldHeld (propagationsApart toResult fiveFields) .result
      [.field "h"] (.ofKind ⟨0⟩) := by decide
  ⟨hread, reads_thinned rfl hread⟩

/-- What was read below the output is not read there any more. -/
theorem thinned_moves :
    handingOver.ReadsBy {} fieldHeld (propagationsApart toResult fiveFields) .result [.field "h"]
        (.ofKind ⟨0⟩) ∧
      ¬ handingOver.ReadsBy {} fieldHeld (propagations 4 toResult fiveFields) .result [.field "h"]
        (.ofKind ⟨0⟩) ∧
      handingOver.ReadsBy {} fieldHeld (propagations 4 toResult fiveFields) .result
        [.field "a", .field "h"] (.ofKind ⟨0⟩) := by decide

end Call

end TaintFlow
