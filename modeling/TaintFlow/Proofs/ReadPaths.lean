import TaintFlow.Proofs.ListedOutputs

/-!
What is read at paths. A source that is read at a path is read above it, and what a tree has at a
chain of fields it has after folding. A call binds its result to a location of its own, which holds
what is handed back, and to the locations that the result shares with the arguments.
-/

namespace TaintFlow

open Node (Sub)

variable {depth : Nat} {f : Frame}

/-! ### Reading -/

namespace Node

variable {t : Node} {names : List String}

/-- What is folded is held where it was. -/
theorem Holds.limit (h : t.Holds names f) (ht : t.Ordered) (depth : Nat) :
    (limit depth t).Holds names f := by
  rw [holds_limit ht]
  split
  · exact h
  · exact ⟨names.drop depth, by rwa [List.take_append_drop]⟩

theorem has_collect_limit (ht : t.Ordered) :
    (limit depth t).collect.Has f ↔ t.collect.Has f := by
  rw [has_collect (ht.limit depth), has_collect ht]
  constructor
  · rintro ⟨names, h⟩
    rw [holds_limit ht] at h
    split at h
    · exact ⟨names, h⟩
    · obtain ⟨rest, h⟩ := h
      exact ⟨_, h⟩
  · rintro ⟨names, h⟩
    exact ⟨names, h.limit ht depth⟩

theorem holds_subtree_append (hf : f.isArgument = false) (path path' : Path) :
    (t.subtree depth (path ++ path')).Holds names f ↔
      ((t.subtree depth path).subtree depth path').Holds names f := by
  induction path generalizing t with
  | nil => exact Iff.rfl
  | cons s path ih =>
    cases s with
    | wildcard => exact holds_bare.trans (holds_subtree_bare hf path').symm
    | field name =>
      rw [List.cons_append, subtree, subtree]
      cases t.child? name with
      | some child => exact ih
      | none =>
        show (bare _).Holds names f ↔ ((bare _).subtree depth path').Holds names f
        rw [holds_bare, holds_subtree_bare hf, FrameSet.has_below hf, FrameSet.has_below hf]

theorem has_collect_bare {fs : FrameSet} : (bare fs).collect.Has f ↔ fs.Has f :=
  FrameSet.has_join.trans (or_iff_left (FrameSet.not_has_empty f))

/-- What is read at a path is read above it. -/
theorem has_collect_of_subtree (ht : t.Ordered) (hf : f.isArgument = false) {path : Path}
    (h : (t.subtree depth path).collect.Has f) : t.collect.Has f := by
  induction path generalizing t with
  | nil => exact h
  | cons s path ih =>
    cases s with
    | wildcard => exact has_collect_bare.1 h
    | field name =>
      rw [subtree] at h
      split at h
      · next child hchild =>
        obtain ⟨names, hnames⟩ := (has_collect (ht.child? hchild)).1 (ih (ht.child? hchild) h)
        have hholds : t.Holds (name :: names) f := by
          rw [Holds, hchild]
          exact hnames
        exact has_collect_of_holds hholds
      · have hholds : t.Holds [] f := (FrameSet.has_below hf).1 (has_collect_bare.1 h)
        exact has_collect_of_holds hholds

/-- What is read at a path is held below its fields. A wildcard reads all that is below it. -/
theorem has_collect_subtree_iff (ht : t.Ordered) (hf : f.isArgument = false) {path : Path} :
    (t.subtree depth path).collect.Has f ↔ ∃ names, t.Holds (path.fieldsBefore ++ names) f := by
  induction path generalizing t with
  | nil => exact has_collect ht
  | cons s path ih =>
    cases s with
    | wildcard =>
      rw [Path.fieldsBefore_wildcard]
      exact has_collect_bare.trans (has_collect ht)
    | field name =>
      have hstep : (t.subtree depth (.field name :: path)).collect.Has f ↔
          ((t.step name depth).subtree depth path).collect.Has f := by
        rw [has_collect (ht.subtree depth _), has_collect ((ht.step name depth).subtree depth path)]
        exact exists_congr fun _ => holds_subtree_field hf
      rw [hstep, ih (ht.step name depth), Path.fieldsBefore_field]
      exact exists_congr fun _ => holds_step hf

theorem holds_subtree_fields (hf : f.isArgument = false) {path : Path} (hpath : .wildcard ∉ path) :
    (t.subtree depth path).Holds names f ↔ t.Holds (TaintTree.fieldNames path ++ names) f := by
  induction path generalizing t with
  | nil => exact Iff.rfl
  | cons s path ih =>
    obtain ⟨hs, hrest⟩ := not_or.1 (mt List.mem_cons.2 hpath)
    cases s with
    | wildcard => exact absurd rfl hs
    | field name =>
      rw [holds_subtree_field hf, ih hrest]
      exact holds_step hf

end Node

namespace TaintTree

variable {t value : TaintTree} {path : Path} {names : List String}

theorem holds_limit (h : value.root.Holds names f) (depth : Nat) :
    (value.limit depth).root.Holds names f := h.limit value.ordered depth

theorem sub_limit (value : TaintTree) (depth : Nat) :
    Sub value.root (value.limit depth).root := fun _ _ _ h => holds_limit h depth

theorem sub_limit_limit {value' : TaintTree} (hsub : Sub value.root value'.root) (kept : Nat) :
    Sub (value.limit kept).root (value'.limit kept).root := hsub.limit value.ordered value'.ordered

/-- What is held is read at the root of the folded tree. -/
theorem has_collect_subtree_nil (h : value.root.Holds names f) (kept : Nat) :
    ((value.limit kept).subtree [] depth).collect.Has f :=
  Node.has_collect_of_holds (holds_limit h kept)

/-- What is read at a path of a folded tree is somewhere in the tree. -/
theorem has_collect_of_subtree_limit (hf : f.isArgument = false) {kept : Nat}
    (h : ((value.limit kept).subtree path depth).collect.Has f) : value.collect.Has f :=
  (Node.has_collect_limit value.ordered).1
    (Node.has_collect_of_subtree (value.limit kept).ordered hf h)

/-- A tree that has all that another one has is read like it, and so is what is folded of it. -/
theorem has_collect_subtree {value' : TaintTree} (hsub : Sub value.root value'.root)
    (hf : f.isArgument = false) (h : (value.subtree path depth).collect.Has f) :
    (value'.subtree path depth).collect.Has f :=
  (hsub.subtree value.ordered path).has_collect (value.ordered.subtree depth path) hf h

theorem has_collect_subtree_iff (hf : f.isArgument = false) :
    (t.subtree path depth).collect.Has f ↔
      ∃ names, t.root.Holds (path.fieldsBefore ++ names) f :=
  Node.has_collect_subtree_iff t.ordered hf

theorem Lands.has_collect (h : value.Lands path depth names f) :
    value.collect.Has f := by
  obtain ⟨rest, -, hrest⟩ := h
  exact (Node.has_collect_limit value.ordered).1 (Node.has_collect_of_holds hrest)

theorem exists_lands (h : value.collect.Has f) (path : Path) (depth : Nat) :
    ∃ rest, value.Lands path depth (fieldNames (path.normalize depth) ++ rest) f := by
  obtain ⟨rest, hrest⟩ := (Node.has_collect value.ordered).1 h
  exact ⟨rest, rest, rfl, holds_limit hrest _⟩

end TaintTree

namespace State

variable {s : State} {L : AliasSet} {path : Path} {register : String}

theorem has_collect_readAll (hf : f.isArgument = false) :
    (s.readAll L path depth).collect.Has f ↔ ∃ l ∈ L, (s.readAt l path depth).collect.Has f := by
  have hholds (t : TaintTree) : t.collect.Has f ↔ ∃ names, t.root.Holds names f :=
    Node.has_collect t.ordered
  simp only [hholds, holds_readAll hf]
  grind

/-- A source that is read at a path below a location is read above the path. -/
theorem has_collect_readAt_append (hf : f.isArgument = false) {l : Location} {path' : Path}
    (h : (s.readAt l (path ++ path') depth).collect.Has f) :
    ((s.readAt l path depth).subtree path' depth).collect.Has f := by
  obtain ⟨names, hnames⟩ := (Node.has_collect (TaintTree.ordered _)).1 h
  rw [holds_readAt hf, ← List.append_assoc, Node.holds_subtree_append hf] at hnames
  have hread : Sub ((s.treeOf l.origin).root.subtree depth (l.path ++ path))
      (s.readAt l path depth).root := fun names f hf => (holds_readAt hf).2
  exact Node.has_collect_of_holds (hread.subtree ((s.treeOf l.origin).ordered.subtree depth _) path'
    names f hf hnames)

/-- A source that is read at a path is read above it. -/
theorem has_collect_readAll_of_prefix {path' : Path} (hshorter : path' <+: path)
    (hf : f.isArgument = false) (h : (s.readAll L path depth).collect.Has f) :
    (s.readAll L path' depth).collect.Has f := by
  obtain ⟨rest, rfl⟩ := hshorter
  obtain ⟨l, hl, hread⟩ := (has_collect_readAll hf).1 h
  exact (has_collect_readAll hf).2 ⟨l, hl,
    Node.has_collect_of_subtree (TaintTree.ordered _) hf (has_collect_readAt_append hf hread)⟩

def Reads (s : State) (register : String) (path : Path) (depth : Nat) (f : Frame) : Prop :=
  (s.readAll (s.read register) path depth).collect.Has f

instance (s : State) (register : String) (path : Path) (depth : Nat) (f : Frame) :
    Decidable (s.Reads register path depth f) := inferInstanceAs (Decidable (FrameSet.Has _ f))

theorem carries_writeAt {value : TaintTree} {o : Origin} (h : (s.treeOf o).root.Carries depth f)
    (l : Location) : ((s.writeAt l path value false depth).treeOf o).root.Carries depth f := by
  rw [treeOf_writeAt]
  split
  · exact TaintTree.carries_write_keep h _ _
  · exact h

theorem has_readAt_of_carries {l : Location} (h : (s.treeOf l.origin).root.Carries depth f)
    (hpath : .wildcard ∉ l.path ++ path) :
    (s.readAt l path depth).root.frames.Has (f.below (l.path ++ path) depth) := by
  unfold readAt
  cases htree : s.tree? l.origin with
  | some tree =>
    rw [treeOf, htree] at h
    exact h.subtree hpath
  | none =>
    rw [treeOf, htree] at h
    exact absurd h.frames (FrameSet.not_has_empty f)

end State

/-! ### Copies -/

namespace Propagation

/-- What is copied depends on the transforms that are kept and on the sanitizers only. -/
theorem copy_congr {p p' : Propagation} {limit : Nat}
    (htransforms : p.transforms.take limit = p'.transforms.take limit)
    (hsanitizers : p.sanitizers = p'.sanitizers) (own : Frame) :
    (p.copy limit own ∅).map Prod.fst = (p'.copy limit own ∅).map Prod.fst := by
  have hkept (room : Nat) (hroom : room ≤ limit) :
      p.transforms.take room = p'.transforms.take room := by
    rw [← Nat.min_eq_left hroom, ← List.take_take, ← List.take_take, htransforms]
  unfold copy Frame.withTransforms
  simp only [hsanitizers, hkept _ (Nat.sub_le _ _)]
  split <;> rfl

def plain (index : Nat) (path : Path) : Propagation :=
  ⟨⟨.argument index, path⟩, .result, [], ∅, false, ∅⟩

theorem copy_plain (hf : f.isArgument = false) (index : Nat) (path : Path) (limit : Nat) :
    ((plain index path).copy limit f ∅).map Prod.fst = some f := by
  have hsanitized : f.kind?.any (plain index path).sanitizers.contains = false := by
    cases f.kind? <;> rfl
  unfold copy
  simp only [hsanitized, hf, Bool.false_eq_true, if_false]
  simp [plain, Frame.withTransforms]

end Propagation

/-! ### Calls -/

namespace Call

variable {h : Heuristics} {c : Call} {model : Model} {s : State} {returned : TaintTree}
  {shared : AliasSet} {register : String} {path : Path}

def redirect (c : Call) (callee : String) : Call := { c with callee }

theorem argument?_eq_some {root : Root} {L : AliasSet} (hL : c.argument? root = some L) :
    ∃ index, root = .argument index ∧ index < c.arguments.length := by
  cases root with
  | argument index => exact ⟨index, rfl, (List.getElem?_eq_some_iff.1 hL).1⟩
  | result => cases hL

def fresh (c : Call) : Location := .instruction c.site.method c.site.position

def written (h : Heuristics) (c : Call) (model : Model) (s : State) : State :=
  (c.outputs h model s).entries.foldl (fun s e => c.writeArgument h s e.1 e.2) s

/-- Whether what is handed back as the result loses fields. An obscure callee flattens all. -/
def flattens (h : Heuristics) (c : Call) (callee : Callee) (s : State) : Bool :=
  match callee with
  | .modeled model => c.mergesResult h model s
  | .obscure => true

theorem run_obscure (h : Heuristics) (c : Call) (register : String) (s : State) :
    (c.run h .obscure (some register) s).1 =
      c.bindResult h s register (.leaf (c.obscured h s)) ∅ := rfl

theorem run_modeled (h : Heuristics) (c : Call) (model : Model) (register : String) (s : State) :
    (c.run h (.modeled model) (some register) s).1 = c.bindResult h (c.written h model s) register
      ((c.outputs h model s).getD .result ∅) (c.shared h model) := rfl

theorem mem_read_bindResult {l : Location} :
    l ∈ (c.bindResult h s register returned shared).read register ↔ l = c.fresh ∨ l ∈ shared := by
  rw [bindResult, State.read_bind, if_pos rfl]
  exact OrdSet.mem_insert

theorem treeOf_bindResult (o : Origin) :
    (c.bindResult h s register returned shared).treeOf o =
      if o = c.fresh.origin then returned.limit h.maxFieldDepth else s.treeOf o := by
  show (s.writeAt c.fresh [] returned true h.maxFieldDepth).treeOf o = _
  rw [State.treeOf_writeAt]
  split
  · exact TaintTree.write_root_strong _ _ _
  · rfl

theorem readAt_fresh : (c.bindResult h s register returned shared).readAt c.fresh path
    h.maxFieldDepth = (returned.limit h.maxFieldDepth).subtree path h.maxFieldDepth := by
  have htree : (c.bindResult h s register returned shared).tree? c.fresh.origin =
      some (returned.limit h.maxFieldDepth) := by
    show (s.writeAt c.fresh [] returned true h.maxFieldDepth).tree? c.fresh.origin = _
    rw [State.tree?_writeAt, if_pos rfl]
    exact congrArg some (TaintTree.write_root_strong _ _ _)
  unfold State.readAt
  rw [htree]
  rfl

theorem carries_written {o : Origin} (hcarries : (s.treeOf o).root.Carries h.maxFieldDepth f) :
    ((c.written h model s).treeOf o).root.Carries h.maxFieldDepth f := by
  refine List.foldlRecOn (motive := fun s : State => (s.treeOf o).root.Carries h.maxFieldDepth f)
    _ _ hcarries fun s hs e _ => ?_
  unfold writeArgument
  split
  · exact List.foldlRecOn (motive := fun s : State => (s.treeOf o).root.Carries h.maxFieldDepth f)
      _ _ hs fun s hs l _ => State.carries_writeAt hs l
  · exact hs

theorem holds_copied {p : Propagation} {L : AliasSet} {names : List String} :
    (copied h s p L).root.Holds names f ↔
      ∃ own, (s.readAll L (p.input.normalize h.maxFieldDepth).path h.maxFieldDepth).root.Holds
        names own ∧ (p.copy h.maxTransformLength own ∅).map Prod.fst = some f :=
  Node.holds_mapFrames Propagation.copy_fst

section

variable {p p' : Propagation} {L : AliasSet}

theorem sub_copied_of_copy
    (hinput : (p'.input.normalize h.maxFieldDepth).path = (p.input.normalize h.maxFieldDepth).path)
    (hcopy : ∀ own, (p.copy h.maxTransformLength own ∅).map Prod.fst =
      (p'.copy h.maxTransformLength own ∅).map Prod.fst) :
    Sub (copied h s p L).root (copied h s p' L).root := by
  intro names f _ hholds
  obtain ⟨own, hown, hf⟩ := holds_copied.1 hholds
  exact holds_copied.2 ⟨own, by rwa [hinput], hcopy own ▸ hf⟩

/-- What is copied from a path is copied from above it. -/
theorem has_collect_copied
    (hinput : (p'.input.normalize h.maxFieldDepth).path <+:
      (p.input.normalize h.maxFieldDepth).path)
    (hcopy : ∀ own, (p.copy h.maxTransformLength own ∅).map Prod.fst =
      (p'.copy h.maxTransformLength own ∅).map Prod.fst)
    (hf : f.isArgument = false) (hcollect : (copied h s p L).collect.Has f) :
    (copied h s p' L).collect.Has f := by
  obtain ⟨names, hnames⟩ := (Node.has_collect (TaintTree.ordered _)).1 hcollect
  obtain ⟨own, hown, hcopied⟩ := holds_copied.1 hnames
  have hsource : own.isArgument = false := by rw [Propagation.isArgument_copy hcopied, hf]
  have hread := State.has_collect_readAll_of_prefix hinput hsource (Node.has_collect_of_holds hown)
  obtain ⟨names', hnames'⟩ := (Node.has_collect (TaintTree.ordered _)).1 hread
  exact Node.has_collect_of_holds (holds_copied.2 ⟨own, hnames', hcopy own ▸ hcopied⟩)

/-- What a result holds at a path is read there. -/
theorem reads_bindResult (hf : f.isArgument = false)
    (hreturned : ((returned.limit h.maxFieldDepth).subtree path h.maxFieldDepth).collect.Has f) :
    (c.bindResult h s register returned shared).Reads register path h.maxFieldDepth f := by
  refine (State.has_collect_readAll hf).2 ⟨c.fresh, mem_read_bindResult.2 (.inl rfl), ?_⟩
  rw [readAt_fresh]
  exact hreturned

end

/-- A frame that is handed back after fields are merged was handed back before. -/
theorem exists_holds_spread {model : Model} {root : Root}
    (hcollect : ((c.outputs h model s).getD root ∅).collect.Has f) :
    ∃ names, (c.spread h model s).Holds root names f := by
  rw [getD_outputs] at hcollect
  exact (Node.has_collect (TaintTree.ordered _)).1 (TaintTree.has_collapse hcollect)

end Call

end TaintFlow
