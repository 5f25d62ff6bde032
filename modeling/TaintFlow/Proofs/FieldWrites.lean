import TaintFlow.Proofs.Writes

/-!
Writes to fields. Where the base of a write may be one location only, and the field has a node of
its own below it (`Location.Resolves`), the write replaces what was there, and no path that does not
lead below the field is covered differently. Any other write is joined in, so that every source that
could be read can still be read (`State.Retains`). Either way the value is read back at the field,
below every location that the base may be.
-/

namespace TaintFlow

variable {depth : Nat} {path : Path} {q : FrameInfo.Test} {f : Frame}

/-! ### Frame sets -/

namespace FrameSet

variable {s t : FrameSet}

theorem passes_of_le (h : s.le t = true) (hs : s.Passes q f) : t.Passes q f := by
  obtain ⟨i, hi, hq⟩ := hs
  obtain ⟨j, hj, hle⟩ := le_iff.1 h f i hi
  exact ⟨j, hj, q.mono hle hq⟩

theorem sources_le_iff : s.sources.le t = true ↔
    ∀ q f, f.isArgument = false → s.Passes q f → t.Passes q f := by
  refine ⟨fun h q f hf hs => passes_of_le h (passes_sources.2 ⟨hf, hs⟩), fun h => ?_⟩
  refine le_of_passes fun q f hs => ?_
  obtain ⟨hf, hs⟩ := passes_sources.1 hs
  exact h q f hf hs

end FrameSet

/-! ### Trees -/

namespace TaintTree

variable {t u value : TaintTree} {strong : Bool} {names : List String}

theorem holds_collect_join (q : FrameSet.Query) (t u : TaintTree) (depth : Nat) :
    q.holds (t.join u depth).collect ↔ q.holds t.collect ∨ q.holds u.collect := by
  have hjoin : q.holds (t.join u depth).collect ↔
      ∃ names, q.holds ((t.root.join depth u.root).cover depth names) :=
    Node.holds_collect q (t.join u depth).ordered depth
  rw [hjoin, collect, collect, Node.holds_collect q t.ordered depth,
    Node.holds_collect q u.ordered depth]
  simp only [Node.cover_join, q.holds_join, exists_or]

/-- A write that is not strong covers all that was covered. -/
theorem passes_write_weak (h : ¬ (strong = true ∧ path.normalize depth = path))
    (hcover : (t.root.cover depth names).Passes q f) :
    ((t.write path value strong depth).root.cover depth names).Passes q f := by
  rw [root_write_weak t value h]
  by_cases hbelow : fieldNames (path.normalize depth) <+: names
  · obtain ⟨rest, rfl⟩ := hbelow
    rw [Node.cover_modifyAt_append, Node.cover_join, Node.cover_descend]
    exact FrameSet.passes_join.2 (.inl hcover)
  · rwa [Node.cover_modifyAt hbelow]

/-- Paths that do not begin with the target of a write keep their cover, wildcards or not. -/
theorem coverOn_write_of_not_prefix (t value : TaintTree) (strong : Bool) {other : Path}
    (h : ¬ path.normalize depth <+: other) :
    (t.write path value strong depth).coverOn other depth = t.coverOn other depth := by
  have hfields : .wildcard ∉ other.fieldsBefore.map Segment.field := by simp
  have hcut (u : TaintTree) :
      u.coverOn other depth = u.coverOn (other.fieldsBefore.map Segment.field) depth := by
    rw [coverOn_eq_coverAt, coverOn_eq_coverAt, Path.fieldsBefore_of_fields hfields,
      Path.fieldNames_map]
  rw [hcut, hcut]
  exact coverOn_write t value strong hfields fun hbelow =>
    h (hbelow.trans other.map_fieldsBefore_isPrefix)

end TaintTree

/-! ### Locations -/

namespace Location

variable {l : Location} {s : Segment}

/-- The field below a location has a node of its own: there is no wildcard on the way to it, and the
depth leaves room for it. -/
def Resolves (l : Location) (s : Segment) (depth : Nat) : Prop :=
  .wildcard ∉ l.path ++ [s] ∧ (l.path ++ [s]).length ≤ depth

theorem resolves_iff : l.Resolves s depth ↔ (l.path ++ [s]).normalize depth = l.path ++ [s] := by
  refine ⟨fun h => Path.normalize_eq_self h.1 h.2, fun h => ?_⟩
  rw [Resolves, ← h]
  exact ⟨Path.wildcard_not_mem_normalize _ _, Path.length_normalize_le _ _⟩

end Location

/-! ### States -/

namespace State

variable {s t : State} {L : AliasSet} {l : Location} {value : TaintTree} {strong : Bool}

theorem readAt_eq_subtree (s : State) (l : Location) (path : Path) (depth : Nat) :
    s.readAt l path depth = (s.treeOf l.origin).subtree (l.path ++ path) depth := by
  unfold readAt treeOf
  cases s.tree? l.origin with
  | some tree => rfl
  | none => exact TaintTree.eq_of_root (Node.subtree_bare ∅ _ depth).symm

theorem query_readAt (q : FrameSet.Query) : q.holds (s.readAt l path depth).collect ↔
    ∃ names, q.holds ((s.treeOf l.origin).root.cover depth
      ((l.path ++ path).fieldsBefore ++ names)) := by
  rw [readAt_eq_subtree]
  exact Node.holds_collect_subtree q (s.treeOf l.origin).ordered

theorem query_readAll (q : FrameSet.Query) :
    q.holds (s.readAll L path depth).collect ↔
      ∃ l ∈ L, q.holds (s.readAt l path depth).collect := by
  rw [readAll, foldl_iff (P := fun t : TaintTree => q.holds t.collect)
    fun t l => TaintTree.holds_collect_join q t (s.readAt l path depth) depth]
  have hempty : ¬ q.holds (∅ : TaintTree).collect := q.not_holds_empty
  simp only [hempty, false_or, OrdSet.mem_toList]

/-- Every source that can be read at a path below a location of `s` can be read there in `t`, and is
reported with no less. -/
def Retains (s t : State) (depth : Nat) : Prop :=
  ∀ l path, (s.readAt l path depth).collect.sources.le (t.readAt l path depth).collect = true

theorem retains_of_cover (h : ∀ o names q f, ((s.treeOf o).root.cover depth names).Passes q f →
    ((t.treeOf o).root.cover depth names).Passes q f) : s.Retains t depth := by
  refine fun l path => FrameSet.sources_le_iff.2 fun q f hf hpasses => ?_
  obtain ⟨names, hnames⟩ := (query_readAt (.source q f hf)).1 hpasses
  exact (query_readAt (.source q f hf)).2 ⟨names, h _ _ q f hnames⟩

/-! #### Writes below some locations -/

/-- A write below a location that is not strong covers all that was covered. -/
theorem passes_writeAt_weak {o : Origin} {names : List String}
    (h : ¬ (strong = true ∧ (l.path ++ path).normalize depth = l.path ++ path))
    (hcover : ((s.treeOf o).root.cover depth names).Passes q f) :
    (((s.writeAt l path value strong depth).treeOf o).root.cover depth names).Passes q f := by
  rw [treeOf_writeAt]
  split
  · exact TaintTree.passes_write_weak h hcover
  · exact hcover

/-- The sources of a tree are read where it was written. -/
theorem passes_readAt_writeAt (hf : f.isArgument = false) (h : value.collect.Passes q f) :
    ((s.writeAt l path value strong depth).readAt l path depth).collect.Passes q f := by
  rw [readAt_eq_subtree, treeOf_writeAt, if_pos rfl]
  exact TaintTree.passes_read_write _ strong hf h

/-- What can be read at a path can be read above it. -/
theorem query_readAt_nil (q : FrameSet.Query) (h : q.holds (s.readAt l path depth).collect) :
    q.holds (s.readAt l [] depth).collect := by
  obtain ⟨names, hnames⟩ := (query_readAt q).1 h
  obtain ⟨more, hmore, -⟩ := Path.exists_fieldsBefore_append l.path path
  rw [hmore, List.append_assoc] at hnames
  exact (query_readAt q).2 ⟨more ++ names, by rwa [List.append_nil]⟩

section FieldWrite

variable {base : AliasSet} {field : Segment}

theorem writeAll_single (h : base.toList = [l]) :
    s.writeAll base path value true depth = s.writeAt l path value true depth := by
  have hsize : base.size = 1 := by rw [OrdSet.size_eq_length, h, List.length_singleton]
  exact writeAll_of_size hsize (OrdSet.mem_toList.1 (h ▸ List.mem_singleton_self l))

/-- Where not a single location has a node of its own for the field, no write is strong. -/
theorem not_strong (h : ¬ ∃ l, base.toList = [l] ∧ l.Resolves field depth) (hl : l ∈ base) :
    ¬ ((true && base.size == 1) = true ∧
      (l.path ++ [field]).normalize depth = l.path ++ [field]) := by
  rintro ⟨hsize, hresolves⟩
  exact h ⟨l, AliasSet.toList_of_size (by simpa using hsize) hl, Location.resolves_iff.2 hresolves⟩

theorem retains_writeAll (h : ¬ ∃ l, base.toList = [l] ∧ l.Resolves field depth) :
    s.Retains (s.writeAll base [field] value true depth) depth :=
  retains_of_cover fun o names q f hcover =>
    List.foldlRecOn (motive := fun t : State => ((t.treeOf o).root.cover depth names).Passes q f)
      base.toList _ hcover fun _ ht _ hl =>
        passes_writeAt_weak (not_strong h (OrdSet.mem_toList.1 hl)) ht

/-- The value is read at the field below every location that it was written to. -/
theorem passes_readAt_writeAll (hl : l ∈ base) (hf : f.isArgument = false)
    (h : value.collect.Passes q f) :
    ((s.writeAll base [field] value true depth).readAt l [field] depth).collect.Passes q f := by
  by_cases hstrong : ∃ l, base.toList = [l] ∧ l.Resolves field depth
  · obtain ⟨own, hown, -⟩ := hstrong
    obtain rfl : l = own := List.mem_singleton.1 (hown ▸ OrdSet.mem_toList.2 hl)
    rw [writeAll_single hown]
    exact passes_readAt_writeAt hf h
  · -- the write below `l` brings the value, and the ones after it are not strong
    have hbrings (t : State) :
        ((t.writeAt l [field] value (true && base.size == 1) depth).readAt l [field]
          depth).collect.Passes q f := passes_readAt_writeAt hf h
    have hkeeps (t : State) (a : Location) (ha : a ∈ base.toList)
        (hread : (t.readAt l [field] depth).collect.Passes q f) :
        ((t.writeAt a [field] value (true && base.size == 1) depth).readAt l [field]
          depth).collect.Passes q f := by
      obtain ⟨names, hnames⟩ := (query_readAt (.source q f hf)).1 hread
      exact (query_readAt (.source q f hf)).2
        ⟨names, passes_writeAt_weak (not_strong hstrong (OrdSet.mem_toList.1 ha)) hnames⟩
    exact foldl_of_mem (P := fun t : State => (t.readAt l [field] depth).collect.Passes q f)
      (OrdSet.mem_toList.2 hl) hbrings hkeeps s

end FieldWrite

/-- What can be read at a field below a location is read through a register that was made to hold
the field, of this location and others. -/
theorem query_readRegister_field (q : FrameSet.Query) (hl : l ∈ L) {field : Segment}
    (h : q.holds (s.readAt l [field] depth).collect) (dest : String) :
    q.holds ((s.bind dest (L.map (·.field field depth))).readRegister dest depth).collect := by
  rw [readRegister, read_bind, if_pos rfl]
  refine (query_readAll q).2 ⟨l.field field depth, OrdSet.mem_map.2 ⟨l, hl, rfl⟩, ?_⟩
  unfold Location.field
  split
  · rw [readAt_eq_subtree] at h ⊢
    rwa [List.append_nil]
  · exact query_readAt_nil q h

end State

namespace Walk

open State

/-- A write to a field replaces what is there only where that is sound. It binds no register. Where
the base may be a single location and the field has a node of its own below it, the taint at the
field is exactly the value, folded at the depth, and all paths that do not lead below the field keep
their cover. Otherwise no source is lost. In any case the sources of the value are read at the field
below every location that the base may be, and as long as they are retained, also through a register
that reads the field of one of these locations. -/
theorem apply_fieldWrite (w : Walk) (position : Nat) (base src : String) (field : Segment)
    (s : State) :
    let depth := w.heuristics.maxFieldDepth
    let value := s.readRegister src depth
    let after := (w.apply position (.fieldWrite base field src) s).1
    (∀ register, after.read register = s.read register) ∧
      (∀ l, (s.read base).toList = [l] → l.Resolves field depth →
        after.readAt l [field] depth = value.limit (depth - (l.path ++ [field]).length) ∧
        after.readAt (l.field field depth) [] depth =
          value.limit (depth - (l.path ++ [field]).length) ∧
        ∀ o path, ¬ (o = l.origin ∧ l.path ++ [field] <+: path) →
          (after.treeOf o).coverOn path depth = (s.treeOf o).coverOn path depth) ∧
      ((¬ ∃ l, (s.read base).toList = [l] ∧ l.Resolves field depth) → s.Retains after depth) ∧
      ∀ l ∈ s.read base,
        value.collect.sources.le (after.readAt l [field] depth).collect = true ∧
        ∀ later : State, after.Retains later depth → ∀ position dest reader,
          l ∈ later.read reader →
            value.collect.sources.le ((w.apply position (.fieldRead dest reader field)
              later).1.readRegister dest depth).collect = true := by
  intro depth value after
  have hafter : after = s.writeAll (s.read base) [field] value true depth := rfl
  refine ⟨fun register => read_writeAll true register, fun l hl hresolves => ?_,
    retains_writeAll, fun l hl => ?_⟩
  · have htarget := Location.resolves_iff.1 hresolves
    have hfield : after.readAt l [field] depth =
        value.limit (depth - (l.path ++ [field]).length) := by
      rw [hafter, writeAll_single hl, readAt_eq_subtree, treeOf_writeAt, if_pos rfl]
      have hread := TaintTree.subtree_write_strong (s.treeOf l.origin) value htarget
      rwa [TaintTree.folded, htarget] at hread
    refine ⟨hfield, ?_, fun o path hother => ?_⟩
    · rw [← hfield, readAt_eq_subtree, readAt_eq_subtree,
        Location.field_of_path hresolves.1 hresolves.2, List.append_nil]
    · rw [hafter, writeAll_single hl, treeOf_writeAt]
      by_cases ho : o = l.origin
      · rw [if_pos ho]
        exact TaintTree.coverOn_write_of_not_prefix _ _ _ fun hbelow =>
          hother ⟨ho, htarget ▸ hbelow⟩
      · rw [if_neg ho]
  · have hvalue (q : FrameInfo.Test) (f : Frame) (hf : f.isArgument = false)
        (h : value.collect.Passes q f) : (after.readAt l [field] depth).collect.Passes q f :=
      passes_readAt_writeAll hl hf h
    refine ⟨FrameSet.sources_le_iff.2 hvalue, fun later hlater position dest reader hreader =>
      FrameSet.sources_le_iff.2 fun q f hf h => ?_⟩
    exact query_readRegister_field (.source q f hf) hreader
      (FrameSet.sources_le_iff.1 (hlater l [field]) q f hf (hvalue q f hf h)) dest

def storing : Walk where
  method := ⟨⟨0⟩, "storing", [], none, none⟩
  heuristics := {}
  summaries _ := .obscure

def boxed : State :=
  ((∅ : State).bind "box" (OrdSet.ofList [.instruction ⟨0⟩ 0])).writeAt (.instruction ⟨0⟩ 0) []
    (.leaf (.singleton (.ofKind ⟨0⟩) ∅)) true 4

/-- Storing an untainted value clears one field, and the other ones keep the kind. -/
theorem apply_fieldWrite_boxed :
    (boxed.read "box").toList = [.instruction ⟨0⟩ 0] ∧
      (Location.instruction ⟨0⟩ 0).Resolves (.field "a") 4 ∧
      (storing.apply 1 (.fieldWrite "box" (.field "a") "none") boxed).1.readAt
        (.instruction ⟨0⟩ 0) [.field "a"] 4 = ∅ ∧
      (((storing.apply 1 (.fieldWrite "box" (.field "a") "none") boxed).1.treeOf
        ⟨⟨0⟩, .instruction 0⟩).coverOn [.field "b"] 4).Has (.ofKind ⟨0⟩) := by
  obtain ⟨-, hstrong, -, -⟩ := apply_fieldWrite storing 1 "box" "none" (.field "a") boxed
  have hsingle : (boxed.read "box").toList = [.instruction ⟨0⟩ 0] := by decide
  have hresolves : (Location.instruction ⟨0⟩ 0).Resolves (.field "a") 4 :=
    ⟨by decide, by decide⟩
  obtain ⟨hread, -, hcover⟩ := hstrong _ hsingle hresolves
  have hkept : ((boxed.treeOf ⟨⟨0⟩, .instruction 0⟩).coverOn [.field "b"] 4).Has
      (.ofKind ⟨0⟩) := by decide
  have hother := hcover ⟨⟨0⟩, .instruction 0⟩ [.field "b"] (by decide)
  exact ⟨hsingle, hresolves, hread, hother.symm ▸ hkept⟩

end Walk

end TaintFlow
