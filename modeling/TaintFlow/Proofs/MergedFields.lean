import TaintFlow.Proofs.Writes

/-!
Merging crowded fields. The fields of a node with too many leaves are merged into the node, deepest
nodes first, so that a node whose fields were merged counts as one leaf of those above it. What is
left is thin: no node has more leaves than allowed (`Node.Thin`). A thin tree is left alone, so
merging changes a tree just when one of its nodes is crowded. Taint moves up to the nodes that are
merged and is read wherever it was read before, with the feature that says so
(`TaintTree.collapse_merges`).
-/

namespace TaintFlow

open FrameInfo (viaCollapse)

/-! ### Marked taint -/

/-- What is reported gains at most one feature. -/
structure FrameInfo.Marked (feature : String) (i j : FrameInfo) : Prop where
  trace : j.trace = i.trace
  kept : ∀ a ∈ i.features, a ∈ j.features
  added : ∀ a ∈ j.features, a ∈ i.features ∨ a = feature

namespace FrameInfo.Marked

variable {feature : String} {i i' j j' k : FrameInfo}

theorem refl (feature : String) (i : FrameInfo) : Marked feature i i :=
  ⟨rfl, fun _ h => h, fun _ h => .inl h⟩

theorem trans (h : Marked feature i j) (h' : Marked feature j k) : Marked feature i k where
  trace := h'.trace.trans h.trace
  kept a ha := h'.kept a (h.kept a ha)
  added a ha := (h'.added a ha).elim (h.added a) .inr

theorem join (h : Marked feature i i') (h' : Marked feature j j') :
    Marked feature (i.join j) (i'.join j') where
  trace := by simp only [FrameInfo.join, h.trace, h'.trace]
  kept a ha := OrdSet.mem_union.2 ((OrdSet.mem_union.1 ha).imp (h.kept a) (h'.kept a))
  added a ha := by
    rcases OrdSet.mem_union.1 ha with ha | ha
    · exact (h.added a ha).imp_left fun ha => OrdSet.mem_union.2 (.inl ha)
    · exact (h'.added a ha).imp_left fun ha => OrdSet.mem_union.2 (.inr ha)

end FrameInfo.Marked

namespace FrameSet

def Marked (feature : String) (s t : FrameSet) : Prop :=
  ∀ f, Option.Rel (FrameInfo.Marked feature) (s.get? f) (t.get? f)

variable {feature : String} {s s' t t' u : FrameSet}

theorem Marked.refl (feature : String) (s : FrameSet) : Marked feature s s := by
  intro f
  cases s.get? f with
  | none => exact .none
  | some info => exact .some (.refl feature info)

theorem Marked.trans (h : Marked feature s t) (h' : Marked feature t u) : Marked feature s u := by
  intro f
  have hst := h f
  have htu := h' f
  generalize s.get? f = x, t.get? f = y, u.get? f = z at hst htu
  cases hst with
  | none => exact htu
  | some hij =>
    cases htu with
    | some hjk => exact .some (hij.trans hjk)

theorem Marked.join (h : Marked feature s s') (h' : Marked feature t t') :
    Marked feature (s.join t) (s'.join t') := by
  intro f
  have hs := h f
  have ht := h' f
  rw [FrameSet.join, FrameSet.join, OrdMap.get?_union, OrdMap.get?_union]
  generalize s.get? f = x, s'.get? f = x', t.get? f = y, t'.get? f = y' at hs ht
  cases hs with
  | none => cases ht with
    | none => exact .none
    | some hjk => exact .some hjk
  | some hij => cases ht with
    | none => exact .some hij
    | some hjk => exact .some (hij.join hjk)

theorem marked_addFeature (feature : String) (s : FrameSet) :
    Marked feature s (s.addFeature feature) := by
  intro f
  rw [addFeature, OrdMap.get?_mapValues]
  cases s.get? f with
  | none => exact .none
  | some info => exact .some ⟨rfl, fun a ha => OrdSet.mem_insert.2 (.inr ha),
      fun a ha => (OrdSet.mem_insert.1 ha).symm⟩

end FrameSet

/-! ### Leaves -/

namespace Node

variable {t child rest : Node} {limit : Nat} {name : String}

/-- The number of leaves below the listed fields. A field without fields is one leaf. -/
def leavesBelow : Node → Nat
  | bare _ => 0
  | field _ child rest => max 1 child.leavesBelow + rest.leavesBelow

def leaves (t : Node) : Nat := max 1 t.leavesBelow

def at? (t : Node) : List String → Option Node
  | [] => some t
  | name :: names => (t.child? name).bind (·.at? names)

def Thin (limit : Nat) (t : Node) : Prop := ∀ names u, t.at? names = some u → u.leaves ≤ limit

def ThinFields (limit : Nat) (t : Node) : Prop :=
  ∀ name child, t.child? name = some child → child.Thin limit

theorem thin_iff : t.Thin limit ↔ t.leaves ≤ limit ∧ t.ThinFields limit := by
  constructor
  · exact fun h => ⟨h [] t rfl, fun name child hchild names u hu => h (name :: names) u (by
      rw [at?, hchild, Option.bind_some, hu])⟩
  · rintro ⟨hleaves, hfields⟩ (_ | ⟨name, names⟩) u hu
    · cases hu
      exact hleaves
    · obtain ⟨child, hchild, hu⟩ := Option.bind_eq_some_iff.1 hu
      exact hfields name child hchild names u hu

theorem thinFields_bare (fs : FrameSet) : (bare fs).ThinFields limit := by
  rintro _ _ ⟨⟩

theorem thinFields_field (hchild : child.Thin limit) (hrest : rest.ThinFields limit) :
    (field name child rest).ThinFields limit := by
  intro n c hc
  rw [child?] at hc
  split at hc
  · cases hc
    exact hchild
  · exact hrest n c hc

theorem thin_child (h : (field name child rest).ThinFields limit) : child.Thin limit :=
  h name child (if_pos rfl)

theorem thinFields_rest (h : (field name child rest).ThinFields limit)
    (ht : (field name child rest).Ordered) : rest.ThinFields limit := by
  intro n c hc
  refine h n c ?_
  rw [child?, if_neg, hc]
  rintro rfl
  rw [child?_eq_none fun hmem => LinearOrd.ne_of_lt (ht.1 n hmem) rfl] at hc
  cases hc

/-! ### Merging -/

theorem marked_settle (limit : Nat) (c : Collapsed) :
    FrameSet.Marked viaCollapse c.node.collect (settle limit c).node.collect := by
  unfold settle
  split
  · exact .refl _ _
  · split
    · exact .refl _ _
    · rw [collect_bare]
      exact FrameSet.Marked.join (.refl _ _) (FrameSet.marked_addFeature _ _)

/-- All frames are kept, and those that are merged are marked, however often. -/
theorem marked_collapseFields (limit : Nat) (t : Node) :
    FrameSet.Marked viaCollapse t.collect (t.collapseFields limit).node.collect := by
  induction t with
  | bare fs => exact .refl _ _
  | field name child rest ihChild ihRest =>
    rw [collapseFields, collect_field, collect_field]
    exact (ihChild.trans (marked_settle limit _)).join ihRest

def Collapsed.Counted (c : Collapsed) : Prop := c.leaves = c.node.leavesBelow

/-- A settled node has the leaves that are counted, and no more than allowed. -/
theorem leaves_settle (hlimit : 1 ≤ limit) {c : Collapsed} (hc : c.Counted) :
    (settle limit c).leaves = (settle limit c).node.leaves ∧ (settle limit c).leaves ≤ limit := by
  rw [Collapsed.Counted] at hc
  unfold settle leaves
  split
  · next hzero =>
    show 1 = max 1 c.node.leavesBelow ∧ 1 ≤ limit
    omega
  · split
    · omega
    · exact ⟨rfl, hlimit⟩

theorem thinFields_settle {c : Collapsed} (hc : c.node.ThinFields limit) :
    (settle limit c).node.ThinFields limit := by
  unfold settle
  split
  · exact hc
  · split
    · exact hc
    · exact thinFields_bare _

theorem counted_collapseFields (hlimit : 1 ≤ limit) (t : Node) :
    (t.collapseFields limit).Counted := by
  induction t with
  | bare fs => rfl
  | field name child rest ihChild ihRest =>
    have hchild := (leaves_settle hlimit ihChild).1
    rw [Collapsed.Counted] at ihRest
    rw [Collapsed.Counted, collapseFields, leavesBelow, hchild, ihRest, leaves]

theorem thin_settle (hlimit : 1 ≤ limit) {c : Collapsed} (hc : c.Counted)
    (hthin : c.node.ThinFields limit) : (settle limit c).node.Thin limit := by
  obtain ⟨hcount, hle⟩ := leaves_settle hlimit hc
  exact thin_iff.2 ⟨hcount ▸ hle, thinFields_settle hthin⟩

/-- Merging bottom-up leaves no node with more leaves than allowed. -/
theorem thinFields_collapseFields (hlimit : 1 ≤ limit) (t : Node) :
    (t.collapseFields limit).node.ThinFields limit := by
  induction t with
  | bare fs => exact thinFields_bare fs
  | field name child rest ihChild ihRest =>
    exact thinFields_field (thin_settle hlimit (counted_collapseFields hlimit child) ihChild) ihRest

/-- Nothing is merged where nothing below is and the leaves are not too many. -/
theorem not_any_settle (hlimit : 1 ≤ limit) (h : (t.collapseFields limit).any = false)
    (hleaves : t.leaves ≤ limit) : (settle limit (t.collapseFields limit)).any = false := by
  have hcount : (t.collapseFields limit).leaves ≤ limit := by
    rw [counted_collapseFields hlimit t, collapseFields_of_not_any h]
    exact Nat.le_trans (Nat.le_max_right 1 _) hleaves
  rw [settle, if_pos hcount]
  split <;> exact h

/-- In a thin tree nothing is merged. -/
theorem not_any_of_thinFields (hlimit : 1 ≤ limit) (ht : t.Ordered) (h : t.ThinFields limit) :
    (t.collapseFields limit).any = false := by
  induction t with
  | bare fs => rfl
  | field name child rest ihChild ihRest =>
    obtain ⟨hleaves, hfields⟩ := thin_iff.1 (thin_child h)
    rw [collapseFields, not_any_settle hlimit (ihChild ht.2.1 hfields) hleaves,
      ihRest ht.2.2 (thinFields_rest h ht), Bool.or_false]

end Node

namespace TaintTree

variable {t : TaintTree} {limit : Nat}

theorem thin_collapse (hlimit : 1 ≤ limit) (t : TaintTree) : (t.collapse limit).root.Thin limit :=
  Node.thin_settle hlimit (Node.counted_collapseFields hlimit t.root)
    (Node.thinFields_collapseFields hlimit t.root)

theorem collapses_eq_false_iff (hlimit : 1 ≤ limit) :
    t.collapses limit = false ↔ t.root.Thin limit := by
  constructor
  · intro h
    rw [← collapse_eq_self h]
    exact thin_collapse hlimit t
  · intro h
    obtain ⟨hleaves, hfields⟩ := Node.thin_iff.1 h
    exact Node.not_any_settle hlimit (Node.not_any_of_thinFields hlimit t.ordered hfields) hleaves

theorem collapses_eq_false_iff_eq (hlimit : 1 ≤ limit) :
    t.collapses limit = false ↔ t.collapse limit = t :=
  ⟨collapse_eq_self, fun h => (collapses_eq_false_iff hlimit).2 (h ▸ thin_collapse hlimit t)⟩

/-- Merging crowded fields bounds the leaves of every node and loses nothing. All frames are kept,
with their traces, and what was merged is marked; the sources that are read at a path are read there
afterwards. Merging changes a tree, and says so, just when a node has more leaves than allowed. -/
theorem collapse_merges (t : TaintTree) {limit : Nat} (hlimit : 1 ≤ limit) :
    (∀ names u, (t.collapse limit).root.at? names = some u → u.leaves ≤ limit) ∧
      t.collect.Marked viaCollapse (t.collapse limit).collect ∧
      (∀ path depth f, f.isArgument = false → (t.read path depth).Has f →
        ((t.collapse limit).read path depth).Has f) ∧
      (t.collapses limit = true ↔ t.collapse limit ≠ t) ∧
      (t.collapses limit = true ↔ ∃ names u, t.root.at? names = some u ∧ limit < u.leaves) := by
  refine ⟨thin_collapse hlimit t, ?_, ?_, ?_, ?_⟩
  · exact (Node.marked_collapseFields limit t.root).trans (Node.marked_settle limit _)
  · exact fun path depth f hf h => has_collect_subtree (sub_collapse t limit) hf h
  · rw [ne_eq, ← collapses_eq_false_iff_eq hlimit, Bool.not_eq_false]
  · rw [← Bool.not_eq_false, collapses_eq_false_iff hlimit, Node.Thin]
    push Not
    rfl

def firstOfTwo : TaintTree :=
  ⟨.field "a" (.bare (FrameSet.singleton (.ofKind ⟨0⟩) ∅)) (.field "b" (.bare ∅) (.bare ∅)),
    by decide⟩

theorem collapse_merges_firstOfTwo :
    1 ≤ 1 ∧
      (∀ names u, (firstOfTwo.collapse 1).root.at? names = some u → u.leaves ≤ 1) ∧
      ((firstOfTwo.collapse 1).read [.field "a"] 1).Has (.ofKind ⟨0⟩) ∧
      firstOfTwo.collapse 1 ≠ firstOfTwo := by
  obtain ⟨hbound, -, hread, hchange, hcrowded⟩ := collapse_merges firstOfTwo (Nat.le_refl 1)
  exact ⟨Nat.le_refl 1, hbound, hread _ _ _ rfl (by decide),
    hchange.1 (hcrowded.2 ⟨[], firstOfTwo.root, rfl, by decide⟩)⟩

end TaintTree

end TaintFlow
