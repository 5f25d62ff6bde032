import TaintFlow.Analysis
import TaintFlow.Proofs.ReadPaths

/-!
Methods that are skipped when the time runs out. The model that stands for such a method copies
every argument to the result, with its fields, while a call of an obscure method has everything that
its arguments hold at the result itself. So a source that an obscure call returns at every path is
still returned (`Analysis.reads_skipped`), but at a field of the result it is read only if an
argument holds it at that field.
-/

namespace TaintFlow

variable {f : Frame}

namespace Call

variable {h : Heuristics} {c : Call} {model : Model} {s : State} {register : String} {path : Path}

/-- What an obscure callee returns is read at every path of the result. -/
theorem reads_run_obscure (hf : f.isArgument = false)
    (hreads : (c.run h .obscure (some register) s).1.Reads register path h.maxFieldDepth f) :
    (c.obscured h s).Has f := by
  rw [run_obscure] at hreads
  obtain ⟨l, hl, hread⟩ := (State.has_collect_readAll hf).1 hreads
  rcases mem_read_bindResult.1 hl with rfl | hshared
  · rw [readAt_fresh] at hread
    exact Node.has_collect_bare.1 (TaintTree.has_collect_of_subtree_limit hf hread)
  · exact absurd hshared (OrdSet.not_mem_empty l)

/-- What an argument holds is returned at the same fields if the model copies the argument. -/
theorem reads_run_copied {p : Propagation} {index : Nat} {L : AliasSet}
    (hp : p ∈ model.propagations) (hinput : p.input = .argument index)
    (houtput : p.output = .result) (htransforms : p.transforms = [])
    (hsanitizers : p.sanitizers = ∅)
    (hL : c.arguments[index]? = some L) (hf : f.isArgument = false)
    (hread : ((s.readAll L [] h.maxFieldDepth).subtree path h.maxFieldDepth).collect.Has f) :
    (c.run h (.modeled model) (some register) s).1.Reads register path h.maxFieldDepth f := by
  obtain ⟨names, hnames⟩ := (TaintTree.has_collect_subtree_iff hf).1 hread
  have hkept : p.transforms.take h.maxTransformLength =
      (Propagation.plain index []).transforms.take h.maxTransformLength := by
    rw [htransforms]
    rfl
  have hcopy : (p.copy h.maxTransformLength f ∅).map Prod.fst = some f :=
    (Propagation.copy_congr hkept hsanitizers f).trans (Propagation.copy_plain hf index [] _)
  have hcopied : (copied h s p L).root.Holds (path.fieldsBefore ++ names) f := by
    refine holds_copied.2 ⟨f, ?_, hcopy⟩
    rw [hinput]
    show (s.readAll L (Path.normalize [] _) _).root.Holds _ f
    rw [Path.normalize_nil]
    exact hnames
  have hspread : (c.spread h model s).Holds .result (path.fieldsBefore ++ names) f := by
    refine (holds_spread hf).2 (.inr ⟨p, hp, L, by rw [hinput]; exact hL, by rw [houtput]; rfl,
      path.fieldsBefore ++ names, ?_, ?_⟩)
    · rw [houtput]
      show _ = TaintTree.fieldNames (Path.normalize (Path.normalize [] _) _) ++ _
      rw [Path.normalize_nil, Path.normalize_nil]
      rfl
    · exact TaintTree.holds_limit hcopied _
  rw [run_modeled]
  refine reads_bindResult hf ((TaintTree.has_collect_subtree_iff hf).2 ⟨names, ?_⟩)
  exact TaintTree.holds_limit (sub_outputs .result _ f hf hspread) _

end Call

namespace Analysis

variable {m : Method} {index : Nat}

def skipped (index : Nat) : Propagation :=
  ⟨.argument index, .result, [], ∅, false, OrdSet.ofList [FrameInfo.viaObscure]⟩

theorem skipped_mem_obscureModel (hindex : index < m.parameters.length) :
    skipped index ∈ (obscureModel m).propagations :=
  foldl_of_mem (P := fun model : Model => skipped index ∈ model.propagations)
    (List.mem_range.2 hindex) (fun _ => OrdSet.mem_insert.2 (.inl rfl))
    (fun _ _ _ hmem => OrdSet.mem_insert.2 (.inr hmem)) _

/-- A source that a call of an obscure method returns is also returned by a call of a skipped one,
and at a path of the result if some argument holds it at that path. -/
theorem reads_skipped {h : Heuristics} {c : Call} {s : State} {register : String} {path : Path}
    (harguments : c.arguments.length = m.parameters.length) (hf : f.isArgument = false)
    (hreads : (c.run h .obscure (some register) s).1.Reads register path h.maxFieldDepth f) :
    (c.run h (.modeled (obscureModel m)) (some register) s).1.Reads register [] h.maxFieldDepth f ∧
      ∀ L ∈ c.arguments,
        ((s.readAll L [] h.maxFieldDepth).subtree path h.maxFieldDepth).collect.Has f →
          (c.run h (.modeled (obscureModel m)) (some register) s).1.Reads register path
            h.maxFieldDepth f := by
  have hcopies (path : Path) (L : AliasSet) (hL : L ∈ c.arguments)
      (hread : ((s.readAll L [] h.maxFieldDepth).subtree path h.maxFieldDepth).collect.Has f) :
      (c.run h (.modeled (obscureModel m)) (some register) s).1.Reads register path
        h.maxFieldDepth f := by
    obtain ⟨index, hindex⟩ := List.mem_iff_getElem?.1 hL
    have hlt : index < m.parameters.length := harguments ▸ (List.getElem?_eq_some_iff.1 hindex).1
    exact Call.reads_run_copied (skipped_mem_obscureModel hlt) rfl rfl rfl rfl hindex hf hread
  refine ⟨?_, hcopies path⟩
  obtain ⟨L, hL, hheld⟩ := Call.has_obscured.1 (Call.reads_run_obscure hf hreads)
  exact hcopies [] L hL hheld

def unanalyzed : Method :=
  ⟨⟨1⟩, "showing", ["x"], some (.run ⟨0, none⟩ (.call "show" ["x"] none) .done), none⟩

def handing : Call := ⟨"main", ⟨⟨0⟩, 1⟩, "showing", [OrdSet.ofList [.instruction ⟨0⟩ 0]]⟩

def holdingField : State :=
  (∅ : State).writeAt (.instruction ⟨0⟩ 0) [.field "f"] (.leaf (.singleton (.ofKind ⟨0⟩) ∅)) false 4

theorem reads_skipped_unanalyzed :
    (handing.run {} .obscure (some "v") holdingField).1.Reads "v" [.field "f"] 4 (.ofKind ⟨0⟩) ∧
      (handing.run {} (.modeled (obscureModel unanalyzed)) (some "v") holdingField).1.Reads "v"
        [.field "f"] 4 (.ofKind ⟨0⟩) :=
  have hreads : (handing.run {} .obscure (some "v") holdingField).1.Reads "v" [.field "f"] 4
      (.ofKind ⟨0⟩) := by decide
  ⟨hreads, (reads_skipped rfl rfl hreads).2 _ (List.mem_singleton_self _) (by decide)⟩

/-- At another field only the call of the obscure method returns it. -/
theorem skipped_loses_field :
    unanalyzed.hasBody = true ∧ unanalyzed.declared = none ∧
      handing.arguments.length = unanalyzed.parameters.length ∧
      (handing.run {} .obscure (some "v") holdingField).1.Reads "v" [.field "g"] 4 (.ofKind ⟨0⟩) ∧
      ¬ (handing.run {} (.modeled (obscureModel unanalyzed)) (some "v") holdingField).1.Reads "v"
        [.field "g"] 4 (.ofKind ⟨0⟩) := by decide

end Analysis

end TaintFlow
