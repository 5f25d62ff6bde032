import Mathlib.Data.List.Forall2
import TaintFlow.Proofs.Covers
import TaintFlow.Proofs.LoopHeads

/-!
States with the same locations bound and the same fields listed, with related frames. A relation
between frame sets is lifted to nodes, trees and states; if operations on frames keep it
(`FrameSet.ClosedRel`), then reads, writes, joins and calls keep the lifted one. All that a call
asks about frames is whether there are any, so related sets have to agree on that.
-/

namespace TaintFlow

/-- The entries of maps with related values are related, one after another. -/
theorem OrdMap.forall₂_entries {κ ν μ : Type} [LinearOrd κ] {r : ν → μ → Prop} {m : OrdMap κ ν}
    {n : OrdMap κ μ} (h : ∀ k, Option.Rel r (m.get? k) (n.get? k)) :
    List.Forall₂ (fun e e' => e.1 = e'.1 ∧ r e.2 e'.2) m.entries n.entries := by
  have hkeys : m.mapValues (fun _ _ => ()) = n.mapValues (fun _ _ => ()) := by
    refine OrdMap.ext fun k => ?_
    have hk := h k
    rw [get?_mapValues, get?_mapValues]
    generalize m.get? k = v?, n.get? k = v?' at hk ⊢
    cases hk <;> rfl
  have hfst : m.entries.map Prod.fst = n.entries.map Prod.fst := by
    have hmap := congrArg (fun m => m.entries.map Prod.fst) hkeys
    simpa [mapValues, Function.comp_def] using hmap
  have hsame : List.Forall₂ (fun e e' => e.1 = e'.1) m.entries n.entries := by
    rw [← List.forall₂_eq_eq_eq, List.forall₂_map_left_iff, List.forall₂_map_right_iff] at hfst
    exact hfst
  refine List.forall₂_iff_zip.2 ⟨hsame.length_eq, fun {e e'} hmem => ?_⟩
  obtain ⟨he, he'⟩ := List.of_mem_zip hmem
  have hkey := (List.forall₂_iff_zip.1 hsame).2 hmem
  have hrel := h e.1
  rw [get?_eq_some_iff.2 he, hkey, get?_eq_some_iff.2 he'] at hrel
  cases hrel with
  | some hvalue => exact ⟨hkey, hvalue⟩

/-- What reads, writes and calls need of a relation between frame sets. -/
structure FrameSet.ClosedRel (r : FrameSet → FrameSet → Prop) : Prop where
  refl (s : FrameSet) : r s s
  join {s s' t t' : FrameSet} : r s s' → r t t' → r (s.join t) (s'.join t')
  below {s s' : FrameSet} (path : Path) (depth : Nat) :
    r s s' → r (s.below path depth) (s'.below path depth)
  addFeature {s s' : FrameSet} (feature : String) :
    r s s' → r (s.addFeature feature) (s'.addFeature feature)
  copies {s s' : FrameSet} (p : Propagation) (limit : Nat) :
    r s s' → r (s.mapFrames (p.copy limit)) (s'.mapFrames (p.copy limit))
  isEmpty {s s' : FrameSet} : r s s' → OrdMap.isEmpty s = OrdMap.isEmpty s'

variable {r : FrameSet → FrameSet → Prop} {depth : Nat}

/-! ### Nodes -/

namespace Node

/-- Nodes that list the same fields, with related frames. -/
inductive Related (r : FrameSet → FrameSet → Prop) : Node → Node → Prop
  | bare {fs fs' : FrameSet} (h : r fs fs') : Related r (bare fs) (bare fs')
  | field {child child' rest rest' : Node} (name : String) (hchild : Related r child child')
      (hrest : Related r rest rest') : Related r (field name child rest) (field name child' rest')

variable {t t' u u' : Node} {fs fs' : FrameSet}

theorem Related.refl (hr : FrameSet.ClosedRel r) (t : Node) : Related r t t := by
  induction t with
  | bare fs => exact .bare (hr.refl fs)
  | field name child rest ihChild ihRest => exact .field name ihChild ihRest

theorem Related.frames (h : Related r t t') : r t.frames t'.frames := by
  induction h with
  | bare h => exact h
  | field _ _ _ _ ih => exact ih

theorem Related.child? (h : Related r t t') (name : String) :
    Option.Rel (Related r) (t.child? name) (t'.child? name) := by
  induction h with
  | bare _ => exact .none
  | field n hchild _ _ ih =>
    unfold Node.child?
    split
    · exact .some hchild
    · exact ih

theorem Related.step (hr : FrameSet.ClosedRel r) (h : Related r t t') (name : String) :
    Related r (t.step name depth) (t'.step name depth) :=
  rel_getD (h.child? name) (.bare (hr.below _ _ h.frames))

theorem Related.erase (h : Related r t t') (name : String) :
    Related r (t.erase name) (t'.erase name) := by
  induction h with
  | bare h => exact .bare h
  | field n hchild hrest _ ih =>
    unfold Node.erase
    split
    · exact hrest
    · exact .field n hchild ih

theorem Related.put (h : Related r t t') (hu : Related r u u') (name : String) :
    Related r (t.put name u) (t'.put name u') := by
  induction h with
  | bare h => exact .field name hu (.bare h)
  | field n hchild hrest _ ih =>
    unfold Node.put
    split
    · exact .field name hu (.field n hchild hrest)
    · exact .field name hu hrest
    · exact .field n hchild ih

theorem Related.overlay (hr : FrameSet.ClosedRel r) (h : Related r t t') (hfs : r fs fs') :
    Related r (overlay depth fs t) (overlay depth fs' t') := by
  induction h generalizing fs fs' with
  | bare h => exact .bare (hr.join h hfs)
  | field n _ _ ihChild ihRest => exact .field n (ihChild (hr.below _ _ hfs)) (ihRest hfs)

theorem Related.join (hr : FrameSet.ClosedRel r) (h : Related r t t') (hu : Related r u u') :
    Related r (join depth t u) (join depth t' u') := by
  induction h generalizing u u' with
  | bare h => exact hu.overlay hr h
  | field n _ _ ihChild ihRest =>
    exact (ihRest (hu.erase n)).put (ihChild (hu.step hr n)) n

theorem Related.collectFields (hr : FrameSet.ClosedRel r) (h : Related r t t') :
    r t.collectFields t'.collectFields := by
  induction h with
  | bare _ => exact hr.refl ∅
  | field _ hchild _ ihChild ihRest => exact hr.join (hr.join hchild.frames ihChild) ihRest

theorem Related.collect (hr : FrameSet.ClosedRel r) (h : Related r t t') :
    r t.collect t'.collect := hr.join h.frames (h.collectFields hr)

theorem Related.isEmpty (hr : FrameSet.ClosedRel r) (h : Related r t t') :
    t.isEmpty = t'.isEmpty := by
  induction h with
  | bare h => exact hr.isEmpty h
  | field _ _ _ ihChild ihRest => rw [Node.isEmpty, Node.isEmpty, ihChild, ihRest]

theorem Related.subtree (hr : FrameSet.ClosedRel r) (h : Related r t t') (path : Path) :
    Related r (t.subtree depth path) (t'.subtree depth path) := by
  induction path generalizing t t' with
  | nil => exact h
  | cons s path ih =>
    cases s with
    | wildcard => exact .bare (h.collect hr)
    | field name =>
      have hchild := h.child? name
      have hframes := h.frames
      unfold Node.subtree
      generalize t.child? name = child?, t'.child? name = child?' at hchild ⊢
      cases hchild with
      | none => exact .bare (hr.below _ _ hframes)
      | some hchild => exact ih hchild

theorem Related.modifyAt (hr : FrameSet.ClosedRel r) {g g' : Node → Node}
    (hg : ∀ u u', Related r u u' → Related r (g u) (g' u')) (h : Related r t t')
    (names : List String) : Related r (t.modifyAt depth g names) (t'.modifyAt depth g' names) := by
  induction names generalizing t t' with
  | nil => exact hg t t' h
  | cons name names ih => exact h.put (ih (h.step hr name)) name

theorem Related.limit (hr : FrameSet.ClosedRel r) (h : Related r t t') (kept : Nat) :
    Related r (t.limit kept) (t'.limit kept) := by
  induction h generalizing kept with
  | bare h => cases kept <;> exact .bare h
  | field n hchild hrest ihChild ihRest =>
    cases kept with
    | zero => exact .bare ((Related.field n hchild hrest).collect hr)
    | succ kept => exact .field n (ihChild kept) (ihRest (kept + 1))

structure Collapsed.Related (r : FrameSet → FrameSet → Prop) (c c' : Collapsed) : Prop where
  node : Node.Related r c.node c'.node
  leaves : c.leaves = c'.leaves

theorem Collapsed.Related.settle (hr : FrameSet.ClosedRel r) {c c' : Collapsed}
    (h : Collapsed.Related r c c') (limit : Nat) :
    Collapsed.Related r (settle limit c) (settle limit c') := by
  unfold Node.settle
  rw [h.leaves]
  split
  · exact ⟨h.node, rfl⟩
  · split
    · exact h
    · exact ⟨.bare (hr.join h.node.frames (hr.addFeature _ (h.node.collectFields hr))), rfl⟩

theorem Related.collapseFields (hr : FrameSet.ClosedRel r) (h : Related r t t') (limit : Nat) :
    Collapsed.Related r (t.collapseFields limit) (t'.collapseFields limit) := by
  induction h with
  | bare h => exact ⟨.bare h, rfl⟩
  | field n _ _ ihChild ihRest =>
    have hsettled := ihChild.settle hr limit
    refine ⟨.field n hsettled.node ihRest.node, ?_⟩
    rw [Node.collapseFields, Node.collapseFields, hsettled.leaves, ihRest.leaves]

theorem Related.mapFrames {g : FrameSet → FrameSet} (hg : ∀ fs fs', r fs fs' → r (g fs) (g fs'))
    (h : Related r t t') : Related r (t.mapFrames g) (t'.mapFrames g) := by
  induction h with
  | bare h => exact .bare (hg _ _ h)
  | field n _ _ ihChild ihRest => exact .field n ihChild ihRest

theorem Related.cover (hr : FrameSet.ClosedRel r) (h : Related r t t') (names : List String) :
    r (t.cover depth names) (t'.cover depth names) := by
  induction names generalizing t t' with
  | nil => exact h.frames
  | cons name names ih => exact ih (h.step hr name)

theorem Related.reaches (h : Related r t t') {names : List String} :
    t.Reaches names ↔ t'.Reaches names := by
  induction names generalizing t t' with
  | nil => exact Iff.rfl
  | cons name names ih =>
    have hchild := h.child? name
    rw [Reaches, Reaches]
    constructor
    · rintro ⟨child, hname, hreaches⟩
      rw [hname] at hchild
      obtain ⟨child', hname', hrel⟩ := rel_some_left hchild
      exact ⟨child', hname', (ih hrel).1 hreaches⟩
    · rintro ⟨child', hname', hreaches⟩
      rw [hname'] at hchild
      obtain ⟨child, hname, hrel⟩ := rel_some_right hchild
      exact ⟨child, hname, (ih hrel).2 hreaches⟩

theorem Related.listed (hr : FrameSet.ClosedRel r) (h : r fs fs') (path : Path) :
    List.Forall₂ (fun e e' => e.1 = e'.1 ∧ r e.2 e'.2) (listed path fs) (listed path fs') := by
  unfold Node.listed
  rw [hr.isEmpty h]
  split
  · exact .nil
  · exact .cons ⟨rfl, h⟩ .nil

theorem Related.listFields (hr : FrameSet.ClosedRel r) (h : Related r t t') (path : Path) :
    List.Forall₂ (fun e e' => e.1 = e'.1 ∧ r e.2 e'.2) (t.listFields path)
      (t'.listFields path) := by
  induction h generalizing path with
  | bare _ => exact .nil
  | field name hchild _ ihChild ihRest =>
    exact List.rel_append (List.rel_append (Related.listed hr hchild.frames _) (ihChild _))
      (ihRest path)

end Node

/-! ### Trees -/

namespace TaintTree

def Related (r : FrameSet → FrameSet → Prop) (t t' : TaintTree) : Prop :=
  Node.Related r t.root t'.root

variable {t t' value value' : TaintTree}

theorem Related.refl (hr : FrameSet.ClosedRel r) (t : TaintTree) : Related r t t :=
  Node.Related.refl hr t.root

theorem Related.join (hr : FrameSet.ClosedRel r) (h : Related r t t')
    (h' : Related r value value') : Related r (t.join value depth) (t'.join value' depth) :=
  Node.Related.join hr h h'

theorem Related.write (hr : FrameSet.ClosedRel r) (h : Related r t t')
    (hvalue : Related r value value') (path : Path) (strong : Bool) :
    Related r (t.write path value strong depth) (t'.write path value' strong depth) := by
  have hlimit := Node.Related.limit hr hvalue (depth - (path.normalize depth).length)
  unfold TaintTree.write
  simp only
  split
  · exact Node.Related.modifyAt hr (fun _ _ _ => hlimit) h _
  · exact Node.Related.modifyAt hr (fun _ _ hu => hu.join hr hlimit) h _

theorem Related.collapse (hr : FrameSet.ClosedRel r) (h : Related r t t') (limit : Nat) :
    Related r (t.collapse limit) (t'.collapse limit) :=
  ((Node.Related.collapseFields hr h limit).settle hr limit).node

/-- The same paths have frames, and related ones. -/
theorem Related.nodes (hr : FrameSet.ClosedRel r) (h : Related r t t') :
    List.Forall₂ (fun e e' => e.1 = e'.1 ∧ r e.2 e'.2) t.nodes t'.nodes :=
  List.rel_append (Node.Related.listed hr (Node.Related.frames h) [])
    (Node.Related.listFields hr h [])

end TaintTree

/-! ### States -/

structure State.Related (r : FrameSet → FrameSet → Prop) (s t : State) : Prop where
  read : ∀ register, s.read register = t.read register
  tree : ∀ o, Option.Rel (TaintTree.Related r) (s.tree? o) (t.tree? o)

namespace State

variable {s s' t t' : State} {L : AliasSet} {path : Path} {value value' : TaintTree}

theorem Related.refl (hr : FrameSet.ClosedRel r) (s : State) : Related r s s where
  read _ := rfl
  tree o := by
    cases s.tree? o with
    | none => exact .none
    | some tree => exact .some (.refl hr tree)

theorem Related.treeOf (hr : FrameSet.ClosedRel r) (h : Related r s t) (o : Origin) :
    TaintTree.Related r (s.treeOf o) (t.treeOf o) := rel_getD (h.tree o) (.refl hr ∅)

theorem Related.readAt (hr : FrameSet.ClosedRel r) (h : Related r s t) (l : Location)
    (path : Path) (depth : Nat) :
    TaintTree.Related r (s.readAt l path depth) (t.readAt l path depth) := by
  have htree := h.tree l.origin
  unfold State.readAt
  generalize s.tree? l.origin = tree?, t.tree? l.origin = tree?' at htree ⊢
  cases htree with
  | none => exact .refl hr ∅
  | some htree => exact Node.Related.subtree hr htree _

theorem Related.readAll (hr : FrameSet.ClosedRel r) (h : Related r s t) (L : AliasSet)
    (path : Path) (depth : Nat) :
    TaintTree.Related r (s.readAll L path depth) (t.readAll L path depth) :=
  List.foldl_rel (.refl hr ∅) fun l _ _ _ hread => hread.join hr (h.readAt hr l path depth)

theorem Related.readRegister (hr : FrameSet.ClosedRel r) (h : Related r s t) (register : String)
    (depth : Nat) :
    TaintTree.Related r (s.readRegister register depth) (t.readRegister register depth) := by
  unfold State.readRegister
  rw [h.read]
  exact h.readAll hr _ _ _

theorem Related.bind (h : Related r s t) (register : String) (L : AliasSet) :
    Related r (s.bind register L) (t.bind register L) where
  read n := by rw [read_bind, read_bind, h.read]
  tree := h.tree

theorem Related.writeAt (hr : FrameSet.ClosedRel r) (h : Related r s t)
    (hvalue : TaintTree.Related r value value') (l : Location) (path : Path) (strong : Bool) :
    Related r (s.writeAt l path value strong depth) (t.writeAt l path value' strong depth) where
  read := h.read
  tree o := by
    have hown := h.treeOf hr l.origin
    rw [tree?_writeAt, tree?_writeAt]
    split
    · exact .some (hown.write hr hvalue _ strong)
    · exact h.tree o

theorem Related.writeAll (hr : FrameSet.ClosedRel r) (h : Related r s t)
    (hvalue : TaintTree.Related r value value') (L : AliasSet) (path : Path) (strong : Bool) :
    Related r (s.writeAll L path value strong depth) (t.writeAll L path value' strong depth) :=
  List.foldl_rel h fun l _ _ _ hwritten => hwritten.writeAt hr hvalue l path _

theorem Related.join (hr : FrameSet.ClosedRel r) (h : Related r s t) (h' : Related r s' t')
    (depth : Nat) : Related r (s.join s' depth) (t.join t' depth) where
  read n := by rw [read_join, read_join, h.read, h'.read]
  tree o := by
    have hown := h.tree o
    have hother := h'.tree o
    unfold State.tree? at hown hother
    unfold State.join State.tree?
    rw [OrdMap.get?_union, OrdMap.get?_union]
    generalize s.taint.get? o = own?, t.taint.get? o = own?' at hown ⊢
    generalize s'.taint.get? o = other?, t'.taint.get? o = other?' at hother ⊢
    cases hown with
    | none => simpa only [Option.merge_none_left] using hother
    | some hown =>
      cases hother with
      | none => exact .some hown
      | some hother => exact .some (hown.join hr hother)

theorem related_iff : Related r s t ↔
    (∀ register, s.read register = t.read register) ∧
      ∀ o, Option.Rel (TaintTree.Related r) (s.tree? o) (t.tree? o) :=
  ⟨fun h => ⟨h.read, h.tree⟩, fun h => ⟨h.1, h.2⟩⟩

theorem tree?_join_of_le (h : s'.le s depth = true) (o : Origin) :
    (s.join s' depth).tree? o = s.tree? o := by
  unfold State.tree?
  rw [taint_join_of_le h]

/-- A join that brings nothing new makes no difference to what a state is related to. -/
theorem related_join_left_of_le (h : s'.le s depth = true) :
    Related r (s.join s' depth) t ↔ Related r s t := by
  simp only [related_iff, read_join_of_le h, tree?_join_of_le h]

theorem related_join_right_of_le (h : t'.le t depth = true) :
    Related r s (t.join t' depth) ↔ Related r s t := by
  simp only [related_iff, read_join_of_le h, tree?_join_of_le h]

end State

/-! ### Calls -/

def Outputs.Related (r : FrameSet → FrameSet → Prop) (o o' : Outputs) : Prop :=
  ∀ root, Option.Rel (TaintTree.Related r) (o.get? root) (o'.get? root)

namespace Outputs

variable {o o' : Outputs} {tree tree' : TaintTree}

theorem Related.refl (hr : FrameSet.ClosedRel r) (o : Outputs) : o.Related r o := fun root => by
  cases o.get? root with
  | none => exact .none
  | some tree => exact .some (.refl hr tree)

theorem Related.getD (hr : FrameSet.ClosedRel r) (h : o.Related r o') (root : Root) :
    TaintTree.Related r (o.getD root ∅) (o'.getD root ∅) := rel_getD (h root) (.refl hr ∅)

theorem Related.write (hr : FrameSet.ClosedRel r) (h : o.Related r o')
    (htree : TaintTree.Related r tree tree') (port : Port) :
    (o.write port tree depth).Related r (o'.write port tree' depth) := by
  intro root
  unfold Outputs.write
  rw [OrdMap.get?_update, OrdMap.get?_update]
  split
  · exact .some ((h.getD hr port.root).write hr htree port.path false)
  · exact h root

theorem Related.collapse (hr : FrameSet.ClosedRel r) (h : o.Related r o') (limit : Nat) :
    Outputs.Related r (o.mapValues fun _ tree => tree.collapse limit)
      (o'.mapValues fun _ tree => tree.collapse limit) := by
  intro root
  have hroot := h root
  rw [OrdMap.get?_mapValues, OrdMap.get?_mapValues]
  generalize o.get? root = tree?, o'.get? root = tree?' at hroot ⊢
  cases hroot with
  | none => exact .none
  | some htree => exact .some (htree.collapse hr limit)

end Outputs

namespace Call

variable {h : Heuristics} {c : Call} {s t : State}

theorem copied_related (hr : FrameSet.ClosedRel r) (hs : State.Related r s t) (p : Propagation)
    (L : AliasSet) : TaintTree.Related r (copied h s p L) (copied h t p L) :=
  Node.Related.mapFrames (fun _ _ => hr.copies p h.maxTransformLength) (hs.readAll hr L _ _)

theorem propagate_related (hr : FrameSet.ClosedRel r) (hs : State.Related r s t) {o o' : Outputs}
    (ho : o.Related r o') (p : Propagation) :
    Outputs.Related r (c.propagate h s o p) (c.propagate h t o' p) := by
  unfold propagate
  simp only
  cases c.argument? (p.input.normalize h.maxFieldDepth).root with
  | none => exact ho
  | some L =>
    have hcopied := copied_related (h := h) hr hs p L
    have hempty : (copied h s p L).isEmpty = (copied h t p L).isEmpty :=
      Node.Related.isEmpty hr hcopied
    change Outputs.Related r (if (copied h s p L).isEmpty then o else _)
      (if (copied h t p L).isEmpty then o' else _)
    rw [hempty]
    split
    · exact ho
    · exact ho.write hr hcopied _

theorem outputs_related (hr : FrameSet.ClosedRel r) (hs : State.Related r s t) (model : Model) :
    Outputs.Related r (c.outputs h model s) (c.outputs h model t) := by
  have hspread : Outputs.Related r (c.spread h model s) (c.spread h model t) := by
    refine List.foldl_rel (.refl hr _) fun p _ _ _ ho => ?_
    exact propagate_related hr hs ho p
  rw [outputs_eq, outputs_eq]
  exact hspread.collapse hr h.maxOutputPathLeaves

theorem writeArguments_related (hr : FrameSet.ClosedRel r) (hs : State.Related r s t)
    {o o' : Outputs} (ho : o.Related r o') :
    State.Related r (o.entries.foldl (fun s e => c.writeArgument h s e.1 e.2) s)
      (o'.entries.foldl (fun s e => c.writeArgument h s e.1 e.2) t) := by
  refine List.rel_foldl (P := State.Related r) (fun s t hs e e' he => ?_) hs
    (OrdMap.forall₂_entries ho)
  obtain ⟨hroot, htree⟩ := he
  unfold writeArgument
  rw [hroot]
  cases c.argument? e'.1 with
  | none => exact hs
  | some L => exact hs.writeAll hr htree L [] false

theorem obscured_related (hr : FrameSet.ClosedRel r) (hs : State.Related r s t) :
    r (c.obscured h s) (c.obscured h t) := by
  refine hr.addFeature _ (List.foldl_rel (hr.refl ∅) fun L _ _ _ hframes => ?_)
  exact hr.join hframes (Node.Related.collect hr (hs.readAll hr L [] _))

theorem bindResult_related (hr : FrameSet.ClosedRel r) (hs : State.Related r s t)
    {returned returned' : TaintTree} (hreturned : TaintTree.Related r returned returned')
    (register : String) (shared : AliasSet) :
    State.Related r (c.bindResult h s register returned shared)
      (c.bindResult h t register returned' shared) :=
  (hs.writeAt hr hreturned _ _ true).bind register _

/-- A call keeps states related. -/
theorem run_related (hr : FrameSet.ClosedRel r) (hs : State.Related r s t) (callee : Callee)
    (result : Option String) :
    State.Related r (c.run h callee result s).1 (c.run h callee result t).1 := by
  cases callee with
  | obscure =>
    cases result with
    | none => exact hs
    | some register =>
      have hleaf : TaintTree.Related r (.leaf (c.obscured h s)) (.leaf (c.obscured h t)) :=
        .bare (obscured_related hr hs)
      exact bindResult_related hr hs hleaf register ∅
  | modeled model =>
    have houtputs := outputs_related (c := c) (h := h) hr hs model
    have hafter := writeArguments_related (c := c) (h := h) hr hs houtputs
    cases result with
    | none => exact hafter
    | some register => exact bindResult_related hr hafter (houtputs.getD hr .result) register _

end Call

/-- An instruction keeps states related. -/
theorem Walk.apply_related (w : Walk) (hr : FrameSet.ClosedRel r) {s t : State}
    (hs : State.Related r s t) (position : Nat) (instruction : Instruction) :
    State.Related r (w.apply position instruction s).1 (w.apply position instruction t).1 := by
  cases instruction with
  | fresh dest => exact hs.bind dest _
  | move dest src =>
    have hbind := hs.bind dest (s.read src)
    simpa only [apply, hs.read src] using hbind
  | fieldRead dest base field =>
    have hbind := hs.bind dest ((s.read base).map (·.field field w.heuristics.maxFieldDepth))
    simpa only [apply, hs.read base] using hbind
  | fieldWrite base field src =>
    have hvalue := hs.readRegister hr src w.heuristics.maxFieldDepth
    simp only [apply, hs.read base]
    exact hs.writeAll hr hvalue _ [field] true
  | call callee args result =>
    have hargs : args.map s.read = args.map t.read := List.map_congr_left fun a _ => hs.read a
    simp only [apply, hargs]
    exact Call.run_related hr hs _ result

end TaintFlow
