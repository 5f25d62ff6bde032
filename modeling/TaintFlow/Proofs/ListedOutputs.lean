import TaintFlow.Proofs.CallSources
import TaintFlow.Proofs.Entry
import TaintFlow.Proofs.Inference
import TaintFlow.Proofs.Listing
import TaintFlow.Proofs.Paths

/-!
What calls list. A frame that a model generates, and the copy of a frame that can be read itself,
are listed in what the call hands back, at the port or, if fields are merged, above it.
-/

namespace TaintFlow

open Node (Sub)

/-- A port that has a frame is listed. -/
theorem PortFrames.exists_of_has {m : PortFrames} {port : Port} {f : Frame}
    (h : FrameSet.Has (m.getD port ∅) f) : ∃ fs, (port, fs) ∈ m.entries ∧ FrameSet.Has fs f := by
  unfold OrdMap.getD at h
  cases hport : m.get? port with
  | none =>
    rw [hport] at h
    exact absurd h (FrameSet.not_has_empty f)
  | some fs =>
    rw [hport] at h
    exact ⟨fs, OrdMap.get?_eq_some_iff.1 hport, h⟩

/-- Following fields one by one down to the depth that is kept. -/
theorem Location.fieldPath_of_path {l : Location} {path : Path} {depth : Nat}
    (h : .wildcard ∉ l.path ++ path) (hlength : (l.path ++ path).length ≤ depth) :
    l.fieldPath path depth = { l with path := l.path ++ path } := by
  induction path generalizing l with
  | nil => simp [fieldPath]
  | cons s path ih =>
    have hfield : l.field s depth = { l with path := l.path ++ [s] } := by
      refine field_of_path (fun hmem => h ?_) ?_
      · exact List.append_cons l.path s path ▸ List.mem_append_left path hmem
      · simp at hlength ⊢
        omega
    rw [fieldPath, List.foldl_cons, hfield]
    refine (ih ?_ ?_).trans ?_
    · simpa using h
    · simpa using hlength
    · simp

/-! ### What trees, states and outputs list -/

namespace TaintTree

variable {t value : TaintTree} {path : Path} {depth : Nat} {names : List String} {f : Frame}

theorem lists_write_keep (h : t.root.Lists names f) (path : Path) (value : TaintTree)
    (depth : Nat) : (t.write path value false depth).root.Lists names f := by
  simp only [write, Bool.false_eq_true, false_and, if_false]
  exact h.modifyAt_join _ _

theorem carries_write_keep (h : t.root.Carries depth f) (path : Path) (value : TaintTree) :
    (t.write path value false depth).root.Carries depth f := by
  simp only [write, Bool.false_eq_true, false_and, if_false]
  exact h.modifyAt_join _ _

theorem lists_write_new (h : value.root.Lists [] f) (t : TaintTree) (path : Path) (depth : Nat) :
    (t.write path value false depth).root.Lists (fieldNames (path.normalize depth)) f := by
  simp only [write, Bool.false_eq_true, false_and, if_false]
  have hlimit : (value.limit (depth - (path.normalize depth).length)).root.Lists [] f :=
    Node.Lists.limit h (Nat.zero_le _)
  have hlists := @Node.lists_modifyAt_join _ _ depth _ hlimit t.root
    (fieldNames (path.normalize depth))
  rw [List.append_nil] at hlists
  exact hlists

theorem write_root_strong (t value : TaintTree) (depth : Nat) :
    t.write [] value true depth = value.limit depth := by
  cases depth <;> rfl

/-- Merging fields lists a frame at the same chain of fields or at a shorter one. -/
theorem lists_collapse (h : t.root.Lists names f) (limit : Nat) :
    ∃ names', names' <+: names ∧ (t.collapse limit).root.Lists names' f := by
  obtain ⟨names', hshorter, hlists⟩ := h.collapseFields limit
  obtain ⟨names'', hshorter', hsettled⟩ := hlists.settle limit
  exact ⟨names'', hshorter'.trans hshorter, hsettled⟩

theorem has_collapse {limit : Nat} (h : (t.collapse limit).collect.Has f) : t.collect.Has f :=
  Node.has_collapseFields (Node.has_settle h)

theorem mem_nodes_of_lists (h : t.root.Lists names f) :
    ∃ fs, (names.map Segment.field, fs) ∈ t.nodes ∧ FrameSet.Has fs f := by
  cases names with
  | nil => exact ⟨_, List.mem_append_left _ (Node.mem_listed_of_has h []), h⟩
  | cons name names =>
    obtain ⟨fs, hfs, hf⟩ := Node.mem_listFields_of_lists h []
    exact ⟨fs, List.mem_append_right _ hfs, hf⟩

end TaintTree

namespace State

variable {s : State} {L : AliasSet} {l : Location} {path : Path} {depth : Nat}
  {names : List String} {f : Frame}

theorem lists_readAll (hl : l ∈ L) (h : (s.readAt l path depth).root.Lists names f) :
    (s.readAll L path depth).root.Lists names f :=
  foldl_of_mem (P := fun t : TaintTree => t.root.Lists names f) (OrdSet.mem_toList.2 hl)
    (fun t => h.join_right t.root) (fun _ _ _ ht => ht.join_left _) ∅

theorem has_frames_readAll (hl : l ∈ L) (h : (s.readAt l path depth).root.frames.Has f) :
    (s.readAll L path depth).root.frames.Has f := by
  have hlists : (s.readAt l path depth).root.Lists [] f := h
  exact lists_readAll hl hlists

end State

namespace Outputs

variable {o : Outputs} {port : Port} {tree : TaintTree} {depth : Nat} {root : Root}
  {names : List String} {f : Frame}

theorem lists_write_keep (h : (o.getD root ∅).root.Lists names f) (port : Port) (tree : TaintTree)
    (depth : Nat) : ((o.write port tree depth).getD root ∅).root.Lists names f := by
  rw [write, OrdMap.getD, OrdMap.get?_update]
  split
  · next hroot =>
    subst hroot
    exact TaintTree.lists_write_keep h _ _ _
  · exact h

theorem lists_write_new (h : tree.root.Lists [] f) (o : Outputs) (port : Port) (depth : Nat) :
    ((o.write port tree depth).getD port.root ∅).root.Lists
      (TaintTree.fieldNames (port.path.normalize depth)) f := by
  rw [write, OrdMap.getD, OrdMap.get?_update, if_pos rfl]
  exact TaintTree.lists_write_new h _ _ _

end Outputs

namespace Call

variable {h : Heuristics} {c : Call} {model : Model} {s : State} {L : AliasSet} {l : Location}
  {f own : Frame} {root : Root} {names : List String} {o : Outputs}

def fieldsOf (h : Heuristics) (port : Port) : List String :=
  TaintTree.fieldNames (port.path.normalize h.maxFieldDepth)

theorem lists_generate_keep (hlists : (o.getD root ∅).root.Lists names f) (port : Port)
    (frames : FrameSet) : ((c.generate h o port frames).getD root ∅).root.Lists names f :=
  Outputs.lists_write_keep hlists _ _ _

theorem lists_propagate_keep (hlists : (o.getD root ∅).root.Lists names f) (p : Propagation) :
    ((c.propagate h s o p).getD root ∅).root.Lists names f := by
  unfold propagate
  simp only
  split
  · exact hlists
  · split
    · exact hlists
    · exact Outputs.lists_write_keep hlists _ _ _

/-- What a callee generates is listed at its port. -/
theorem lists_spread_generation {e : Port × FrameSet} (he : e ∈ model.generations.entries)
    (hf : FrameSet.Has e.2 f) :
    ((c.spread h model s).getD e.1.root ∅).root.Lists (fieldsOf h e.1) f := by
  have hgenerated : OrdMap.getD (model.generations.entries.foldl
      (fun o e => c.generate h o e.1 e.2) ∅) e.1.root ∅ |>.root.Lists (fieldsOf h e.1) f := by
    refine foldl_of_mem (P := fun o : Outputs => (o.getD e.1.root ∅).root.Lists (fieldsOf h e.1) f)
      he (fun o => ?_) (fun o e' _ ho => lists_generate_keep ho e'.1 e'.2) ∅
    have hleaf : (generated h c e.1 e.2).root.Lists [] f := FrameSet.has_addStep.2 hf
    have hlists := Outputs.lists_write_new hleaf o (e.1.normalize h.maxFieldDepth) h.maxFieldDepth
    rw [Port.normalize, Path.normalize_normalize] at hlists
    exact hlists
  exact List.foldlRecOn (motive := fun o : Outputs =>
    (o.getD e.1.root ∅).root.Lists (fieldsOf h e.1) f) _ _ hgenerated
    fun o ho p _ => lists_propagate_keep ho p

/-- What a propagation copies of a frame that can be read itself is listed at its output. -/
theorem lists_spread_propagation {p : Propagation} (hp : p ∈ model.propagations)
    (hL : c.argument? p.input.root = some L)
    (hown : (s.readAll L (p.input.normalize h.maxFieldDepth).path
      h.maxFieldDepth).root.frames.Has own)
    (hcopy : (p.copy h.maxTransformLength own ∅).map Prod.fst = some f) :
    ((c.spread h model s).getD p.output.root ∅).root.Lists (fieldsOf h p.output) f := by
  refine foldl_of_mem (P := fun o : Outputs =>
      (o.getD p.output.root ∅).root.Lists (fieldsOf h p.output) f)
    (OrdSet.mem_toList.2 hp) (fun o => ?_) (fun o p' _ ho => lists_propagate_keep ho p') _
  have hholds : (copied h s p L).root.Holds [] f :=
    (Node.holds_mapFrames Propagation.copy_fst).2 ⟨own, hown, hcopy⟩
  have hcopied : (copied h s p L).root.Lists [] f := hholds
  have hlists := Outputs.lists_write_new hcopied o (p.output.normalize h.maxFieldDepth)
    h.maxFieldDepth
  rw [Port.normalize, Path.normalize_normalize] at hlists
  have hroot : (p.input.normalize h.maxFieldDepth).root = p.input.root := rfl
  unfold propagate
  simp only [hroot, hL]
  split
  · next hempty => exact absurd hcopied.holds (Node.not_holds_of_isEmpty hempty [])
  · exact hlists

def mergesResult (h : Heuristics) (c : Call) (model : Model) (s : State) : Bool :=
  ((c.spread h model s).getD .result ∅).collapses h.maxOutputPathLeaves

theorem getD_outputs (root : Root) : (c.outputs h model s).getD root ∅ =
    ((c.spread h model s).getD root ∅).collapse h.maxOutputPathLeaves := by
  rw [outputs_eq, OrdMap.getD, OrdMap.getD, OrdMap.get?_mapValues]
  cases (c.spread h model s).get? root <;> rfl

/-- What is listed before merging is listed after it, at a shorter chain of fields if anything is
merged. -/
theorem lists_outputs (hlists : ((c.spread h model s).getD .result ∅).root.Lists names f) :
    ∃ names', names' <+: names ∧ (c.mergesResult h model s = false → names' = names) ∧
      ((c.outputs h model s).getD .result ∅).root.Lists names' f := by
  rw [getD_outputs]
  cases hmerges : c.mergesResult h model s with
  | false =>
    refine ⟨names, List.prefix_refl names, fun _ => rfl, ?_⟩
    rw [TaintTree.collapse_eq_self hmerges]
    exact hlists
  | true =>
    obtain ⟨names', hshorter, hlists'⟩ := TaintTree.lists_collapse hlists h.maxOutputPathLeaves
    exact ⟨names', hshorter, nofun, hlists'⟩

end Call

end TaintFlow
