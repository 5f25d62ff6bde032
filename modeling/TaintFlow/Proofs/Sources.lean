import TaintFlow.Proofs.Reading
import TaintFlow.State

/-!
Where the sources of a state lie. A write puts the sources of what is written below its target
(`TaintTree.Lands`) and, unless it is strong, keeps all that was there. From this every operation on
states is monotone: a state that holds more of everything (`State.Within`) does so after reads,
writes and joins. A strong write is the one operation that removes sources. It is strong only where
a register holds a single location, so more locations make a write weak; no location at all must
stay none, since then nothing is written.
-/

namespace TaintFlow

open Node (Sub)

/-! ### Trees -/

namespace TaintTree

variable {t t' value value' : TaintTree} {path : Path} {depth : Nat} {names : List String}
  {f : Frame}

theorem not_holds_empty : ¬ (∅ : TaintTree).root.Holds names f :=
  Node.not_holds_of_isEmpty rfl names

def Lands (value : TaintTree) (path : Path) (depth : Nat) (names : List String) (f : Frame) :
    Prop :=
  ∃ rest, names = fieldNames (path.normalize depth) ++ rest ∧
    (value.limit (depth - (path.normalize depth).length)).root.Holds rest f

theorem Lands.mono (h : Sub value.root value'.root) (hf : f.isArgument = false)
    (hlands : value.Lands path depth names f) : value'.Lands path depth names f := by
  obtain ⟨rest, hnames, hrest⟩ := hlands
  exact ⟨rest, hnames, h.limit value.ordered value'.ordered rest f hf hrest⟩

theorem not_lands (h : ∀ names, ¬ value.root.Holds names f) : ¬ value.Lands path depth names f := by
  rintro ⟨rest, -, hrest⟩
  rw [limit, Node.holds_limit value.ordered] at hrest
  split at hrest
  · exact h rest hrest
  · obtain ⟨more, hmore⟩ := hrest
    exact h _ hmore

/-- A weak write adds what lands and keeps the rest. -/
theorem holds_write_weak (hf : f.isArgument = false) :
    (t.write path value false depth).root.Holds names f ↔
      t.root.Holds names f ∨ value.Lands path depth names f := by
  simp only [write, Bool.false_eq_true, false_and, if_false]
  exact Node.holds_modifyAt_join hf

/-- A strong write has no more than a weak one. -/
theorem sub_write_weak (strong : Bool) :
    Sub (t.write path value strong depth).root (t.write path value false depth).root := by
  simp only [write, Bool.false_eq_true, false_and, if_false]
  split
  · refine Node.Sub.modifyAt (fun u u' _ names f hf h => ?_) (.refl _) _
    exact (Node.holds_join hf).2 (.inr h)
  · exact .refl _

theorem sub_write (h : Sub t.root t'.root) (hvalue : Sub value.root value'.root) (strong : Bool) :
    Sub (t.write path value strong depth).root (t'.write path value' strong depth).root := by
  have hlimit : Sub (value.limit (depth - (path.normalize depth).length)).root
      (value'.limit (depth - (path.normalize depth).length)).root :=
    hvalue.limit value.ordered value'.ordered
  simp only [write]
  split
  · exact Node.Sub.modifyAt (fun _ _ _ => hlimit) h _
  · exact Node.Sub.modifyAt (fun _ _ hu => hu.join hlimit) h _

/-- Merging fields loses nothing. -/
theorem sub_collapse (t : TaintTree) (limit : Nat) : Sub t.root (t.collapse limit).root :=
  (Node.sub_collapseFields limit t.root).trans (Node.sub_settle limit _)

/-- Where nothing is merged, nothing changes. -/
theorem collapse_eq_self {limit : Nat} (h : t.collapses limit = false) : t.collapse limit = t := by
  obtain ⟨root, ordered⟩ := t
  obtain ⟨hsettle, hany⟩ := Node.settle_of_not_any h
  have hroot : (Node.settle limit (root.collapseFields limit)).node = root :=
    hsettle.trans (Node.collapseFields_of_not_any hany)
  simp only [collapse, hroot]

end TaintTree

/-! ### Locations -/

namespace Location

/-- Following a field where neither the depth nor a wildcard stops. -/
theorem field_of_path {l : Location} {s : Segment} {depth : Nat} (h : .wildcard ∉ l.path ++ [s])
    (hlength : (l.path ++ [s]).length ≤ depth) :
    l.field s depth = { l with path := l.path ++ [s] } := by
  rw [List.length_append, List.length_singleton] at hlength
  refine if_pos ⟨hlength, fun hlast => h ?_⟩
  exact List.mem_append_left [s] (List.mem_of_getLast? hlast)

theorem origin_field (l : Location) (s : Segment) (depth : Nat) :
    (l.field s depth).origin = l.origin := by
  unfold field
  split <;> rfl

theorem origin_fieldPath (l : Location) (path : Path) (depth : Nat) :
    (l.fieldPath path depth).origin = l.origin := by
  unfold fieldPath
  induction path generalizing l with
  | nil => rfl
  | cons s path ih => rw [List.foldl_cons, ih, origin_field]

end Location

/-! ### Alias sets -/

/-- One set of locations has all of another, and is empty if that one is. -/
structure AliasSet.Within (L L' : AliasSet) : Prop where
  subset : ∀ l ∈ L, l ∈ L'
  empty : L = ∅ → L' = ∅

namespace AliasSet

variable {L L' M M' : AliasSet}

theorem Within.refl (L : AliasSet) : Within L L := ⟨fun _ h => h, id⟩

theorem eq_empty_iff : L = ∅ ↔ ∀ l, l ∉ L :=
  ⟨fun h l hl => OrdSet.not_mem_empty l (h ▸ hl),
    fun h => OrdSet.ext fun l => ⟨fun hl => absurd hl (h l), fun hl => absurd hl (OrdSet.not_mem_empty l)⟩⟩

theorem Within.union (h : Within L L') (h' : Within M M') : Within (L ∪ M) (L' ∪ M') where
  subset l hl := OrdSet.mem_union.2 ((OrdSet.mem_union.1 hl).imp (h.subset l) (h'.subset l))
  empty hempty := by
    simp only [eq_empty_iff, OrdSet.mem_union, not_or] at hempty ⊢
    exact fun l => ⟨eq_empty_iff.1 (h.empty (eq_empty_iff.2 fun l => (hempty l).1)) l,
      eq_empty_iff.1 (h'.empty (eq_empty_iff.2 fun l => (hempty l).2)) l⟩

theorem map_eq_empty_iff {g : Location → Location} : OrdSet.map g L = ∅ ↔ L = ∅ := by
  simp only [eq_empty_iff, OrdSet.mem_map]
  exact ⟨fun h l hl => h (g l) ⟨l, hl, rfl⟩, fun h _ ⟨a, ha, _⟩ => h a ha⟩

theorem Within.map (h : Within L L') (g : Location → Location) :
    Within (OrdSet.map g L) (OrdSet.map g L') where
  subset l hl := by
    obtain ⟨a, ha, rfl⟩ := OrdSet.mem_map.1 hl
    exact OrdSet.mem_map.2 ⟨a, h.subset a ha, rfl⟩
  empty hempty := map_eq_empty_iff.2 (h.empty (map_eq_empty_iff.1 hempty))

theorem insert_ne_empty {l : Location} : L.insert l ≠ ∅ := fun hempty =>
  eq_empty_iff.1 hempty l (OrdSet.mem_insert.2 (.inl rfl))

/-- Only the set itself is within a single location. -/
theorem Within.eq_of_size (h : Within L L') (hsize : L'.size = 1) : L = L' := by
  have hlength : L'.toList.length = 1 := (List.length_map _).trans hsize
  obtain ⟨l, hl⟩ := List.length_eq_one_iff.1 hlength
  have hmem (a : Location) : a ∈ L' ↔ a = l := by rw [← OrdSet.mem_toList, hl, List.mem_singleton]
  refine OrdSet.ext fun a => ⟨h.subset a, fun ha => ?_⟩
  refine Classical.byContradiction fun hnot => ?_
  have hempty : L' = ∅ := h.empty <| eq_empty_iff.2 fun b hb => hnot <| by
    rwa [(hmem a).1 ha, ← (hmem b).1 (h.subset b hb)]
  exact eq_empty_iff.1 hempty a ha

end AliasSet

/-! ### States -/

namespace State

def treeOf (s : State) (o : Origin) : TaintTree := (s.tree? o).getD ∅

/-- Whatever `s` lets a register hold, and whatever source a tree of `s` holds, `t` does too. -/
structure Below (s t : State) : Prop where
  subset : ∀ register, ∀ l ∈ s.read register, l ∈ t.read register
  sub : ∀ o, Sub (s.treeOf o).root (t.treeOf o).root

/-- `t` has all that `s` has, and what holds no location in `s` does not in `t`. -/
structure Within (s t : State) : Prop where
  read : ∀ register, AliasSet.Within (s.read register) (t.read register)
  sub : ∀ o, Sub (s.treeOf o).root (t.treeOf o).root

variable {s s' t t' u : State} {L L' : AliasSet} {path : Path} {depth : Nat} {names : List String}
  {f : Frame} {value value' : TaintTree} {o : Origin}

theorem Within.refl (s : State) : Within s s := ⟨fun _ => .refl _, fun _ => .refl _⟩

/-! #### Reads -/

theorem holds_readAt (hf : f.isArgument = false) {l : Location} :
    (s.readAt l path depth).root.Holds names f ↔
      ((s.treeOf l.origin).root.subtree depth (l.path ++ path)).Holds names f := by
  unfold readAt treeOf
  cases s.tree? l.origin with
  | some tree => rfl
  | none =>
    refine iff_of_false TaintTree.not_holds_empty fun h => FrameSet.not_has_empty f ?_
    exact (Node.holds_subtree_bare hf _).1 h

theorem holds_readAll (hf : f.isArgument = false) :
    (s.readAll L path depth).root.Holds names f ↔
      ∃ l ∈ L, (s.readAt l path depth).root.Holds names f := by
  rw [readAll, foldl_iff (P := fun t => TaintTree.root t |>.Holds names f)
    fun t l => Node.holds_join hf, or_iff_right TaintTree.not_holds_empty]
  simp only [OrdSet.mem_toList]

theorem sub_readAll (h : ∀ o, Sub (s.treeOf o).root (t.treeOf o).root)
    (hL : ∀ l ∈ L, l ∈ L') :
    Sub (s.readAll L path depth).root (t.readAll L' path depth).root := by
  intro names f hf hholds
  obtain ⟨l, hl, hread⟩ := (holds_readAll hf).1 hholds
  refine (holds_readAll hf).2 ⟨l, hL l hl, (holds_readAt hf).2 ?_⟩
  exact (h l.origin).subtree (s.treeOf l.origin).ordered _ names f hf ((holds_readAt hf).1 hread)

/-! #### Bindings -/

theorem read_bind (register r : String) (L : AliasSet) :
    (s.bind register L).read r = if r = register then L else s.read r := by
  simp only [read, bind, OrdMap.getD, OrdMap.get?_insert]
  split <;> rfl

theorem Within.bind (h : Within s t) (hL : AliasSet.Within L L') (register : String) :
    Within (s.bind register L) (t.bind register L') where
  read r := by
    rw [read_bind, read_bind]
    split
    · exact hL
    · exact h.read r
  sub := h.sub

/-! #### Joins -/

theorem mem_read_join {register : String} {l : Location} :
    l ∈ (s.join t depth).read register ↔ l ∈ s.read register ∨ l ∈ t.read register := by
  simp only [read, join, OrdMap.getD, OrdMap.get?_union]
  cases s.aliases.get? register <;> cases t.aliases.get? register <;>
    simp [OrdSet.mem_union, OrdSet.not_mem_empty]

theorem holds_treeOf_join (hf : f.isArgument = false) :
    ((s.join t depth).treeOf o).root.Holds names f ↔
      (s.treeOf o).root.Holds names f ∨ (t.treeOf o).root.Holds names f := by
  simp only [treeOf, tree?, join, OrdMap.get?_union]
  cases s.taint.get? o with
  | none => cases t.taint.get? o <;> simp [TaintTree.not_holds_empty]
  | some u =>
    cases t.taint.get? o with
    | none => simp [TaintTree.not_holds_empty]
    | some v => exact Node.holds_join hf

theorem read_join (s t : State) (depth : Nat) (register : String) :
    (s.join t depth).read register = s.read register ∪ t.read register :=
  OrdSet.ext fun l => by rw [mem_read_join, OrdSet.mem_union]

theorem tree?_join (s t : State) (depth : Nat) (o : Origin) :
    (s.join t depth).tree? o =
      Option.merge (fun u v => TaintTree.join u v depth) (s.tree? o) (t.tree? o) :=
  OrdMap.get?_union _ _ _ _

theorem Within.join (h : Within s s') (h' : Within t t') :
    Within (s.join t depth) (s'.join t' depth) where
  read register := by
    rw [read_join, read_join]
    exact (h.read register).union (h'.read register)
  sub o names f hf hholds := by
    rw [holds_treeOf_join hf] at hholds ⊢
    exact hholds.imp (h.sub o names f hf) (h'.sub o names f hf)

/-- Joining what the bigger state has into the smaller one keeps it smaller. -/
theorem Within.join_left (h : Within s t) (hu : Below u t) : Within (s.join u depth) t where
  read register :=
    { subset := fun l hl =>
        (mem_read_join.1 hl).elim ((h.read register).subset l) (hu.subset register l)
      empty := fun hempty => (h.read register).empty <| AliasSet.eq_empty_iff.2 fun l hl =>
        AliasSet.eq_empty_iff.1 hempty l (mem_read_join.2 (.inl hl)) }
  sub o names f hf hholds :=
    ((holds_treeOf_join hf).1 hholds).elim (h.sub o names f hf) (hu.sub o names f hf)

/-- A join brings nothing new if it brings no location to a register, and neither a tree nor anything
to one. -/
theorem le_iff : s.le t depth = true ↔
    (∀ register, ∀ l ∈ s.read register, l ∈ t.read register) ∧
      ∀ o tree, s.tree? o = some tree → ∃ tree', t.tree? o = some tree' ∧
        tree.le tree' depth = true := by
  rw [le, Bool.and_eq_true, List.all_eq_true, List.all_eq_true]
  refine and_congr ⟨fun h register l hl => ?_, fun h e he => ?_⟩ ⟨fun h o tree ho => ?_, fun h e he => ?_⟩
  · unfold read OrdMap.getD at hl
    cases hown : s.aliases.get? register with
    | none =>
      rw [hown] at hl
      exact absurd hl (OrdSet.not_mem_empty l)
    | some L =>
      rw [hown] at hl
      exact OrdSet.isSubset_iff.1 (h _ (OrdMap.get?_eq_some_iff.1 hown)) l hl
  · have hread : s.read e.1 = e.2 := by
      rw [read, OrdMap.getD, OrdMap.get?_eq_some_iff.2 he]
      rfl
    exact OrdSet.isSubset_iff.2 (hread ▸ h e.1)
  · exact (Option.any_eq_true _ _).1 (h (o, tree) (OrdMap.get?_eq_some_iff.1 ho))
  · exact (Option.any_eq_true _ _).2 (h e.1 e.2 (OrdMap.get?_eq_some_iff.2 he))

/-- A join that brings nothing new brings no source. -/
theorem Below.of_le (h : s.le t depth = true) : Below s t := by
  obtain ⟨hread, htaint⟩ := le_iff.1 h
  refine ⟨hread, fun o names f hf hholds => ?_⟩
  unfold treeOf at hholds
  cases hown : s.tree? o with
  | none =>
    rw [hown] at hholds
    exact absurd hholds TaintTree.not_holds_empty
  | some tree =>
    rw [hown] at hholds
    obtain ⟨tree', htree', hle⟩ := htaint o tree hown
    rw [treeOf, htree']
    exact Node.sub_of_le hle names f hf hholds

theorem Below.trans (h : Below s t) (h' : Below t u) : Below s u where
  subset register l hl := h'.subset register l (h.subset register l hl)
  sub o := (h.sub o).trans (h'.sub o)

theorem Within.below (h : Within s t) : Below s t := ⟨fun r => (h.read r).subset, h.sub⟩

/-! #### Writes -/

theorem tree?_writeAt (l : Location) (strong : Bool) (o : Origin) :
    (s.writeAt l path value strong depth).tree? o =
      if o = l.origin then
        some ((s.treeOf l.origin).write (l.path ++ path) value strong depth)
      else s.tree? o :=
  OrdMap.get?_update _ _ _ _ _

theorem treeOf_writeAt (l : Location) (strong : Bool) :
    (s.writeAt l path value strong depth).treeOf o =
      if o = l.origin then (s.treeOf o).write (l.path ++ path) value strong depth
      else s.treeOf o := by
  rw [treeOf, tree?_writeAt]
  split
  · next h => exact h ▸ rfl
  · rfl

theorem sub_writeAt (h : Sub (s.treeOf o).root (t.treeOf o).root) (hvalue : Sub value.root value'.root)
    (l : Location) (strong : Bool) :
    Sub ((s.writeAt l path value strong depth).treeOf o).root
      ((t.writeAt l path value' strong depth).treeOf o).root := by
  rw [treeOf_writeAt, treeOf_writeAt]
  split
  · exact TaintTree.sub_write h hvalue strong
  · exact h

theorem Within.writeAt (h : Within s t) (hvalue : Sub value.root value'.root) (l : Location)
    (strong : Bool) :
    Within (s.writeAt l path value strong depth) (t.writeAt l path value' strong depth) :=
  ⟨h.read, fun o => sub_writeAt (h.sub o) hvalue l strong⟩

theorem read_writeAll (strong : Bool) (register : String) :
    (s.writeAll L path value strong depth).read register = s.read register :=
  List.foldlRecOn (motive := fun u => State.read u register = s.read register) L.toList _ rfl
    fun _ hu _ _ => hu

/-- A weak write to some locations adds what lands below them. -/
theorem holds_writeAll_weak (hf : f.isArgument = false) :
    ((s.writeAll L path value false depth).treeOf o).root.Holds names f ↔
      (s.treeOf o).root.Holds names f ∨
        ∃ l ∈ L, l.origin = o ∧ value.Lands (l.path ++ path) depth names f := by
  rw [writeAll, foldl_iff (P := fun u => (treeOf u o).root.Holds names f) (Q := fun l =>
    l.origin = o ∧ value.Lands (l.path ++ path) depth names f)]
  · simp only [OrdSet.mem_toList]
  · intro u l
    rw [Bool.false_and, treeOf_writeAt]
    by_cases ho : o = l.origin
    · rw [if_pos ho, TaintTree.holds_write_weak hf]
      simp [ho]
    · rw [if_neg ho]
      simp [Ne.symm ho]

theorem sub_writeAll_weak (strong : Bool) :
    Sub ((s.writeAll L path value strong depth).treeOf o).root
      ((s.writeAll L path value false depth).treeOf o).root := by
  unfold writeAll
  have hfold (ls : List Location) (s t : State) (h : Sub (s.treeOf o).root (t.treeOf o).root) :
      Sub ((ls.foldl (fun s l => s.writeAt l path value (strong && L.size == 1) depth) s).treeOf o).root
        ((ls.foldl (fun s l => s.writeAt l path value (false && L.size == 1) depth) t).treeOf o).root := by
    induction ls generalizing s t with
    | nil => exact h
    | cons l ls ih =>
      refine ih _ _ ?_
      rw [treeOf_writeAt, treeOf_writeAt]
      split
      · exact (TaintTree.sub_write_weak _).trans (TaintTree.sub_write h (.refl _) false)
      · exact h
  exact hfold L.toList s s (.refl _)

/-- A weak write to more locations leaves more than any write. -/
theorem sub_writeAll_of_weak {o' : Origin} (h : Sub (s.treeOf o).root (t.treeOf o').root)
    (hL : ∀ l ∈ L, l.origin = o → ∃ l' ∈ L', l'.origin = o' ∧ l'.path = l.path)
    (hvalue : Sub value.root value'.root) (strong : Bool) :
    Sub ((s.writeAll L path value strong depth).treeOf o).root
      ((t.writeAll L' path value' false depth).treeOf o').root := by
  intro names f hf hholds
  rw [holds_writeAll_weak hf]
  rcases (holds_writeAll_weak hf).1 (sub_writeAll_weak strong names f hf hholds) with
    hown | ⟨l, hl, ho, hlands⟩
  · exact .inl (h names f hf hown)
  · obtain ⟨l', hl', ho', hpath⟩ := hL l hl ho
    rw [← hpath] at hlands
    exact .inr ⟨l', hl', ho', hlands.mono hvalue hf⟩

/-- Writes to more locations leave more. -/
theorem Within.writeAll (h : Within s t) (hL : AliasSet.Within L L')
    (hvalue : Sub value.root value'.root) (strong : Bool) :
    Within (s.writeAll L path value strong depth) (t.writeAll L' path value' strong depth) where
  read register := by
    rw [read_writeAll, read_writeAll]
    exact h.read register
  sub o := by
    by_cases hstrong : (strong && L'.size == 1) = true
    · -- the one location is the same on both sides, and both writes are strong
      have hsize : L'.size = 1 := by simpa using (Bool.and_eq_true_iff.1 hstrong).2
      obtain rfl := hL.eq_of_size hsize
      unfold State.writeAll
      generalize L.toList = ls
      have hsub := h.sub o
      clear h
      induction ls generalizing s t with
      | nil => exact hsub
      | cons l ls ih => exact ih (sub_writeAt hsub hvalue l _)
    · have hweak : t.writeAll L' path value' strong depth =
          t.writeAll L' path value' false depth := by
        unfold State.writeAll
        rw [Bool.eq_false_iff.2 hstrong, Bool.false_and]
      rw [hweak]
      exact sub_writeAll_of_weak (h.sub o) (fun l hl ho => ⟨l, hL.subset l hl, ho, rfl⟩) hvalue strong

end State

end TaintFlow
