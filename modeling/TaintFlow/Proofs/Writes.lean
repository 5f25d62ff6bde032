import TaintFlow.Proofs.PointwiseJoins

/-!
Writes into trees. A write acts at the normal form of its path: there it replaces what the tree
covers, or joins into it, with the written tree folded at the depth that is left. Every other path
of fields keeps its cover, although the fields on the way are listed (`TaintTree.write_refines`). So
a write refines what is there and never hides any of it, and what is written is read again at the
path that it was written to, however the path was cut.
-/

namespace TaintFlow

open FrameInfo (Test)

/-! ### Frame sets -/

namespace FrameInfo

variable {i j : FrameInfo} {q : Test}

theorem Test.mono (hle : i.le j = true) (h : q.passes i) : q.passes j := by
  have hjoin : j.join i = j := le_antisymm (join_le (le_refl j) hle) (le_join_left j i)
  exact hjoin ▸ (q.passes_join j i).2 (.inr h)

end FrameInfo

namespace FrameSet

variable {s t : FrameSet} {f : Frame} {q : Test}

/-- A set brings nothing new if whatever test it passes is passed. -/
theorem le_of_passes (h : ∀ q f, s.Passes q f → t.Passes q f) : s.le t = true := by
  refine le_iff.2 fun f i hi => ?_
  obtain ⟨j, hj, -⟩ := h .anything f ⟨i, hi, trivial⟩
  have hpasses (q : Test) (hq : q.passes i) : q.passes j :=
    (passes_iff_of_get? hj).1 (h q f ⟨i, hi, hq⟩)
  exact ⟨j, hj, FrameInfo.le_iff.2 ⟨fun feature hfeature => hpasses (.reports feature) hfeature,
    hpasses (.notAfter i.trace) (Trace.before_self i.trace)⟩⟩

theorem passes_sources : s.sources.Passes q f ↔ f.isArgument = false ∧ s.Passes q f := by
  unfold Passes sources
  rw [OrdMap.get?_filter]
  cases s.get? f with
  | none => simp
  | some info => cases f.isArgument <;> simp [Option.filter]

/-- A source is reported in the same way at every path below. -/
theorem passes_below_source (hf : f.isArgument = false) {path : Path} {depth : Nat} :
    (s.below path depth).Passes q f ↔ s.Passes q f := by
  rw [passes_below]
  constructor
  · rintro ⟨own, hown, hbelow⟩
    have hsource : own.isArgument = false := by rw [← isArgument_below own path depth, hbelow, hf]
    rw [below_of_source hsource] at hbelow
    exact hbelow ▸ hown
  · exact fun h => ⟨f, h, below_of_source hf path depth⟩

/-- What is behind a wildcard is not told apart. -/
theorem below_fieldsBefore (s : FrameSet) (path : Path) (depth : Nat) :
    s.below (path.fieldsBefore.map Segment.field) depth = s.below path depth := by
  unfold below Frame.below
  simp only [Path.normalize_fieldsBefore]

theorem below_wildcard (s : FrameSet) (path : Path) (depth : Nat) :
    s.below (.wildcard :: path) depth = s := by
  rw [← below_fieldsBefore, Path.fieldsBefore_wildcard]
  exact below_nil s depth

/-! ### Queries -/

/-- A question about sets that a join answers with yes if and only if one of its sides does, and
the empty set with no. Refining frames does not change the answer. -/
structure Query where
  holds : FrameSet → Prop
  not_holds_empty : ¬ holds ∅
  holds_join : ∀ s t, holds (s.join t) ↔ holds s ∨ holds t
  holds_below : ∀ s path depth, holds (s.below path depth) ↔ holds s

namespace Query

def source (q : Test) (f : Frame) (hf : f.isArgument = false) : Query where
  holds s := s.Passes q f
  not_holds_empty := not_passes_empty
  holds_join _ _ := passes_join
  holds_below _ _ _ := passes_below_source hf

def occupied : Query where
  holds s := ∃ f, s.Has f
  not_holds_empty := fun ⟨f, hf⟩ => not_has_empty f hf
  holds_join _ _ := by simp only [← passes_anything, passes_join, exists_or]
  holds_below _ _ _ := by
    simp only [← passes_anything, passes_below]
    exact ⟨fun ⟨_, own, hown, _⟩ => ⟨own, hown⟩, fun ⟨own, hown⟩ => ⟨_, own, hown, rfl⟩⟩

end Query

end FrameSet

/-! ### Reading at paths -/

namespace Node

variable {t child rest : Node} {f : Frame} {q : Test} {depth : Nat} {path : Path}

theorem collect_bare (fs : FrameSet) : (bare fs).collect = fs :=
  FrameSet.join_eq_left (FrameSet.empty_le fs)

theorem subtree_bare (fs : FrameSet) (path : Path) (depth : Nat) :
    (bare fs).subtree depth path = bare (fs.below path depth) := by
  cases path with
  | nil => rw [subtree, FrameSet.below_nil]
  | cons s path =>
    cases s with
    | wildcard => rw [subtree, collect_bare, FrameSet.below_wildcard]
    | field name => rfl

/-- Reading at a path is reading at its first field, whether listed or not, and then at the rest. -/
theorem subtree_field (t : Node) (name : String) (path : Path) (depth : Nat) :
    t.subtree depth (.field name :: path) = (t.step name depth).subtree depth path := by
  rw [subtree, step]
  cases t.child? name with
  | some child => rfl
  | none => rw [Option.getD_none, subtree_bare, FrameSet.below_below]

/-- The frames of the deepest listed node on a path, refined by the rest of the path. -/
def coverOn (depth : Nat) (t : Node) : Path → FrameSet
  | [] => t.frames
  | .wildcard :: rest => t.frames.below (.wildcard :: rest) depth
  | .field name :: rest =>
    match t.child? name with
    | some child => child.coverOn depth rest
    | none => t.frames.below (.field name :: rest) depth

/-- A path is covered like the chain of its fields. -/
theorem coverOn_eq_cover (t : Node) (path : Path) (depth : Nat) :
    t.coverOn depth path = t.cover depth path.fieldsBefore := by
  induction path generalizing t with
  | nil => rfl
  | cons s path ih =>
    cases s with
    | wildcard =>
      rw [coverOn, FrameSet.below_wildcard, Path.fieldsBefore_wildcard]
      rfl
    | field name =>
      rw [coverOn, Path.fieldsBefore_field, cover_cons, step]
      cases t.child? name with
      | some child => exact ih child
      | none =>
        rw [Option.getD_none, cover_bare, FrameSet.below_below, ← List.map_cons,
          ← Path.fieldsBefore_field, FrameSet.below_fieldsBefore]

theorem collect_field (name : String) (child rest : Node) :
    (field name child rest).collect = child.collect.join rest.collect := by
  refine FrameSet.ext_of_passes fun q f => ?_
  simp only [collect, frames, collectFields, FrameSet.passes_join]
  tauto

/-- What any node has is covered at some chain of fields. -/
theorem holds_collect (q : FrameSet.Query) (ht : t.Ordered) (depth : Nat) :
    q.holds t.collect ↔ ∃ names, q.holds (t.cover depth names) := by
  induction t with
  | bare fs => simp only [collect_bare, cover_bare, q.holds_below, exists_const]
  | field name child rest ihChild ihRest =>
    obtain ⟨hlt, hchild, hrest⟩ := ht
    have hother {n : String} (hn : n ≠ name) (names : List String) :
        (field name child rest).cover depth (n :: names) = rest.cover depth (n :: names) := by
      rw [cover_cons, cover_cons, step_field_of_ne hn]
    rw [collect_field, q.holds_join, ihChild hchild, ihRest hrest]
    constructor
    · rintro (⟨names, h⟩ | ⟨names, h⟩)
      · exact ⟨name :: names, by rwa [cover_field_self]⟩
      · rcases names with _ | ⟨n, names⟩
        · exact ⟨[], h⟩
        · by_cases hn : n = name
          · -- the field is not listed again, so this is what the node itself has
            have hunlisted : rest.child? n = none :=
              child?_eq_none fun hmem => LinearOrd.ne_of_lt (hlt n hmem) hn.symm
            rw [cover_cons, step_of_unlisted hunlisted, cover_bare, q.holds_below,
              q.holds_below] at h
            exact ⟨[], h⟩
          · exact ⟨n :: names, by rwa [hother hn]⟩
    · rintro ⟨_ | ⟨n, names⟩, h⟩
      · exact .inr ⟨[], h⟩
      · by_cases hn : n = name
        · subst hn
          rw [cover_field_self] at h
          exact .inl ⟨names, h⟩
        · rw [hother hn] at h
          exact .inr ⟨n :: names, h⟩

/-- What is read at a path is covered below its fields. -/
theorem holds_collect_subtree (q : FrameSet.Query) (ht : t.Ordered) :
    q.holds (t.subtree depth path).collect ↔
      ∃ names, q.holds (t.cover depth (path.fieldsBefore ++ names)) := by
  induction path generalizing t with
  | nil => exact holds_collect q ht depth
  | cons s path ih =>
    cases s with
    | wildcard =>
      rw [subtree, collect_bare, Path.fieldsBefore_wildcard]
      exact holds_collect q ht depth
    | field name =>
      rw [subtree_field, ih (ht.step name depth), Path.fieldsBefore_field]
      rfl

/-- A source that any node has is covered at some chain of fields, and reported in the same way. -/
theorem passes_collect (ht : t.Ordered) (hf : f.isArgument = false) (depth : Nat) :
    t.collect.Passes q f ↔ ∃ names, (t.cover depth names).Passes q f :=
  holds_collect (.source q f hf) ht depth

/-- The sources that are read at a path are those that are covered below its fields. -/
theorem passes_collect_subtree (ht : t.Ordered) (hf : f.isArgument = false) :
    (t.subtree depth path).collect.Passes q f ↔
      ∃ names, (t.cover depth (path.fieldsBefore ++ names)).Passes q f :=
  holds_collect_subtree (.source q f hf) ht

/-! ### Folding -/

theorem limit_zero (t : Node) : limit 0 t = bare t.collect := by
  cases t with
  | bare fs => rw [limit, collect_bare]
  | field name child rest => rfl

/-- Folding moves frames and loses none. -/
theorem collect_limit (t : Node) (kept : Nat) : (limit kept t).collect = t.collect := by
  induction t generalizing kept with
  | bare fs => cases kept <;> rfl
  | field name child rest ihChild ihRest =>
    cases kept with
    | zero => rw [limit_zero, collect_bare]
    | succ kept => rw [limit, collect_field, collect_field, ihChild, ihRest]

theorem frames_limit (t : Node) (kept : Nat) : (limit (kept + 1) t).frames = t.frames := by
  induction t with
  | bare fs => rfl
  | field name child rest _ ih => exact ih

theorem child?_limit (t : Node) (kept : Nat) (name : String) :
    (limit (kept + 1) t).child? name = (t.child? name).map (limit kept) := by
  induction t with
  | bare fs => rfl
  | field n child rest _ ih =>
    rw [limit, child?, child?]
    split
    · rfl
    · exact ih

theorem step_limit (t : Node) (kept : Nat) (name : String) (depth : Nat) :
    (limit (kept + 1) t).step name depth = limit kept (t.step name depth) := by
  rw [step, step, child?_limit, frames_limit]
  cases t.child? name with
  | some child => rfl
  | none => cases kept <;> rfl

/-- What is read of a folded node is folded at the depth that is left. -/
theorem subtree_limit {names : List String} {kept : Nat} (h : names.length ≤ kept) (t : Node)
    (depth : Nat) : (limit kept t).subtree depth (names.map Segment.field) =
      limit (kept - names.length) (t.subtree depth (names.map Segment.field)) := by
  induction names generalizing t kept with
  | nil => rfl
  | cons name names ih =>
    cases kept with
    | zero => cases h
    | succ kept =>
      rw [List.map_cons, subtree_field, subtree_field, step_limit,
        ih (Nat.le_of_succ_le_succ h), List.length_cons, Nat.add_sub_add_right]

/-! ### Changes at a chain of fields -/

variable {g : Node → Node} {fields names : List String}

/-- Below the chain there is what the change makes of the node that was there. -/
theorem cover_modifyAt_append (t : Node) (g : Node → Node) (fields names : List String)
    (depth : Nat) : (t.modifyAt depth g fields).cover depth (fields ++ names) =
      (g (t.descend depth fields)).cover depth names := by
  induction fields generalizing t with
  | nil => rfl
  | cons name fields ih =>
    rw [modifyAt, List.cons_append, cover_cons, step_put, if_pos rfl, ih]
    rfl

theorem cover_descend (t : Node) (fields names : List String) (depth : Nat) :
    (t.descend depth fields).cover depth names = t.cover depth (fields ++ names) := by
  rw [cover, cover, descend, descend, descend, List.foldl_append]

/-- Elsewhere the cover stays, also on the way, where fields are listed with what they inherit. -/
theorem cover_modifyAt (h : ¬ fields <+: names) :
    (t.modifyAt depth g fields).cover depth names = t.cover depth names := by
  induction fields generalizing t names with
  | nil => exact absurd List.nil_prefix h
  | cons name fields ih =>
    rw [modifyAt]
    cases names with
    | nil => exact frames_put _ _ _
    | cons n names =>
      rw [cover_cons, cover_cons, step_put]
      split
      · next hn =>
        subst hn
        exact ih fun hbelow => h (List.cons_prefix_cons.2 ⟨rfl, hbelow⟩)
      · rfl

theorem reaches_modifyAt (h : ¬ fields <+: names) :
    (t.modifyAt depth g fields).Reaches names ↔ t.Reaches names ∨ names <+: fields := by
  induction fields generalizing t names with
  | nil => exact absurd List.nil_prefix h
  | cons name fields ih =>
    cases names with
    | nil => simp [Reaches]
    | cons n names =>
      by_cases hn : n = name
      · subst hn
        have hbelow : ¬ fields <+: names := fun hbelow =>
          h (List.cons_prefix_cons.2 ⟨rfl, hbelow⟩)
        rw [modifyAt, Reaches, List.cons_prefix_cons, eq_self_iff_true, true_and]
        simp only [child?_put, if_true, Option.some.injEq, exists_eq_left', ih hbelow]
        cases names with
        | nil => simp [Reaches]
        | cons m names => rw [reaches_step]
      · rw [modifyAt, Reaches, Reaches, List.cons_prefix_cons]
        simp [child?_put, hn]

theorem subtree_modifyAt_const (t u : Node) (fields : List String) (depth : Nat) :
    (t.modifyAt depth (fun _ => u) fields).subtree depth (fields.map Segment.field) = u := by
  induction fields generalizing t with
  | nil => rfl
  | cons name fields ih =>
    rw [modifyAt, List.map_cons, subtree_field, step_put, if_pos rfl, ih]

end Node

/-! ### Writes -/

namespace TaintTree

variable {value : TaintTree} {path : Path} {strong : Bool} {depth : Nat} {f : Frame}

/-- A write is strong if it was asked for and its path is in normal form. -/
theorem write_normalize (t value : TaintTree) (path : Path) (strong : Bool) (depth : Nat) :
    t.write path value strong depth =
      t.write (path.normalize depth) value (strong && decide (path.normalize depth = path))
        depth := by
  have hstrong : (strong && decide (path.normalize depth = path)) = true ↔
      strong = true ∧ path.normalize depth = path := by simp
  simp only [write, Path.normalize_normalize, and_true, hstrong]

theorem eq_of_root {t u : TaintTree} (h : t.root = u.root) : t = u := by
  cases t
  cases u
  congr 1

def coverOn (t : TaintTree) (path : Path) (depth : Nat) : FrameSet := t.root.coverOn depth path

theorem coverOn_eq_coverAt (t : TaintTree) (path : Path) (depth : Nat) :
    t.coverOn path depth = t.coverAt path.fieldsBefore depth := by
  rw [coverOn, Node.coverOn_eq_cover, coverAt, Node.deepest_eq_cover]

/-- Above the depth of folding nothing changes. -/
theorem coverOn_limit (t : TaintTree) {kept : Nat} (h : path.length < kept) (depth : Nat) :
    (t.limit kept).coverOn path depth = t.coverOn path depth := by
  have hlength : path.fieldsBefore.length < kept :=
    Nat.lt_of_le_of_lt (by simpa using path.map_fieldsBefore_isPrefix.length_le) h
  obtain ⟨left, hleft⟩ : ∃ left, kept - path.fieldsBefore.length = left + 1 :=
    ⟨kept - path.fieldsBefore.length - 1, by omega⟩
  rw [coverOn_eq_coverAt, coverOn_eq_coverAt, ← frames_root_subtree, ← frames_root_subtree]
  show (Node.subtree depth (Node.limit kept t.root) _).frames = _
  rw [Node.subtree_limit (Nat.le_of_lt hlength), hleft, Node.frames_limit]
  rfl

/-- At the depth of folding there is all that was read there. -/
theorem subtree_limit (t : TaintTree) (h : .wildcard ∉ path) (depth : Nat) :
    (t.limit path.length).subtree path depth = leaf (t.read path depth) := by
  obtain ⟨names, rfl⟩ : ∃ names : List String, path = names.map Segment.field :=
    ⟨fieldNames path, (Path.map_fieldNames h).symm⟩
  refine eq_of_root ?_
  show Node.subtree depth (Node.limit _ t.root) _ = _
  rw [List.length_map, Node.subtree_limit (Nat.le_refl _), Nat.sub_self, Node.limit_zero]
  rfl

/-- The tree that is written, folded at the depth that is left below the normal form of the path. -/
def folded (value : TaintTree) (path : Path) (depth : Nat) : TaintTree :=
  value.limit (depth - (path.normalize depth).length)

theorem root_write_strong (t value : TaintTree) (h : path.normalize depth = path) :
    (t.write path value true depth).root = t.root.modifyAt depth
      (fun _ => (value.folded path depth).root) (fieldNames (path.normalize depth)) := by
  simp only [write, h, and_self, if_true, folded]

theorem root_write_weak (t value : TaintTree)
    (h : ¬ (strong = true ∧ path.normalize depth = path)) :
    (t.write path value strong depth).root = t.root.modifyAt depth
      (fun u => u.join depth (value.folded path depth).root)
      (fieldNames (path.normalize depth)) := by
  simp only [write, if_neg h, folded]

/-- Whatever a write makes of the node at its target covers what is written. -/
theorem root_write (t value : TaintTree) (path : Path) (strong : Bool) (depth : Nat) :
    ∃ change : Node → Node, (t.write path value strong depth).root =
        t.root.modifyAt depth change (fieldNames (path.normalize depth)) ∧
      ∀ u names q f, ((value.folded path depth).root.cover depth names).Passes q f →
        ((change u).cover depth names).Passes q f := by
  by_cases h : strong = true ∧ path.normalize depth = path
  · obtain ⟨rfl, hpath⟩ := h
    exact ⟨_, root_write_strong t value hpath, fun _ _ _ _ hpasses => hpasses⟩
  · refine ⟨_, root_write_weak t value h, fun u names q f hpasses => ?_⟩
    rw [Node.cover_join]
    exact FrameSet.passes_join.2 (.inr hpasses)

theorem subtree_write_strong (t value : TaintTree) (h : path.normalize depth = path) :
    (t.write path value true depth).subtree (path.normalize depth) depth =
      value.folded path depth := by
  have hfields := Path.map_fieldNames (Path.wildcard_not_mem_normalize path depth)
  refine eq_of_root ?_
  show (t.write path value true depth).root.subtree depth (path.normalize depth) = _
  rw [root_write_strong t value h]
  conv_lhs => rw [← hfields, Path.fieldNames_map]
  exact Node.subtree_modifyAt_const _ _ _ _

theorem coverOn_write_weak (t value : TaintTree)
    (h : ¬ (strong = true ∧ path.normalize depth = path)) (rest : Path) :
    (t.write path value strong depth).coverOn (path.normalize depth ++ rest) depth =
      (t.coverOn (path.normalize depth ++ rest) depth).join
        ((value.folded path depth).coverOn rest depth) := by
  simp only [coverOn, Node.coverOn_eq_cover]
  rw [root_write_weak t value h,
    Path.fieldsBefore_append (Path.wildcard_not_mem_normalize path depth),
    Node.cover_modifyAt_append, Node.cover_join, Node.cover_descend]

/-- Paths of fields that do not lead below the target of a write keep their cover. -/
theorem coverOn_write (t value : TaintTree) (strong : Bool) {other : Path}
    (hfields : .wildcard ∉ other) (h : ¬ path.normalize depth <+: other) :
    (t.write path value strong depth).coverOn other depth = t.coverOn other depth := by
  obtain ⟨change, hroot, -⟩ := t.root_write value path strong depth
  simp only [coverOn, Node.coverOn_eq_cover, Path.fieldsBefore_of_fields hfields]
  rw [hroot, Node.cover_modifyAt]
  rwa [Path.fieldNames_isPrefix_iff (Path.wildcard_not_mem_normalize path depth) hfields]

/-- Of these paths the write lists those on its way. -/
theorem reaches_write (t value : TaintTree) (strong : Bool) {other : Path}
    (hfields : .wildcard ∉ other) (h : ¬ path.normalize depth <+: other) :
    (t.write path value strong depth).Reaches (fieldNames other) ↔
      t.Reaches (fieldNames other) ∨ other <+: path.normalize depth := by
  have htarget := Path.wildcard_not_mem_normalize path depth
  obtain ⟨change, hroot, -⟩ := t.root_write value path strong depth
  rw [Reaches, hroot, Node.reaches_modifyAt, Path.fieldNames_isPrefix_iff hfields htarget]
  · rfl
  · rwa [Path.fieldNames_isPrefix_iff htarget hfields]

/-- The sources of a tree are read at the path that it was written to. A path that was cut at a
wildcard reads all that is below; one that was cut at the depth is below a node without fields. -/
theorem passes_read_write {q : FrameInfo.Test} (t : TaintTree) (strong : Bool)
    (hf : f.isArgument = false) (h : value.collect.Passes q f) :
    ((t.write path value strong depth).read path depth).Passes q f := by
  obtain ⟨change, hroot, hchange⟩ := t.root_write value path strong depth
  obtain ⟨more, hmore, hcut⟩ := path.exists_fieldsBefore depth
  have hcovered : ∃ names,
      ((value.folded path depth).root.cover depth (more ++ names)).Passes q f := by
    rcases hcut with rfl | hlength
    · refine (Node.passes_collect (value.folded path depth).ordered hf depth).1 ?_
      rwa [folded, limit, Node.collect_limit]
    · refine ⟨[], ?_⟩
      have hbare : (value.folded path depth).root = .bare value.collect := by
        show Node.limit (depth - (path.normalize depth).length) value.root = _
        rw [hlength, Nat.sub_self, Node.limit_zero]
        rfl
      rw [hbare, Node.cover_bare]
      exact (FrameSet.passes_below_source hf).2 h
  obtain ⟨names, hnames⟩ := hcovered
  rw [read, subtree, collect,
    Node.passes_collect_subtree (t.write path value strong depth).ordered hf]
  refine ⟨names, ?_⟩
  rw [hmore, List.append_assoc, hroot, Node.cover_modifyAt_append]
  exact hchange _ _ _ _ hnames

/-- A write refines what is there and never hides any of it. It acts at the normal form of its path,
strongly if it was asked to and the path is in normal form, and with the tree folded at the depth
that is left. Then the folded tree is found there; otherwise it is joined in, at every path below.
All other paths of fields keep their cover, although those on the way are listed. The sources of the
tree are read at the path that it was written to. -/
theorem write_refines (t value : TaintTree) (path : Path) (strong : Bool) (depth : Nat) :
    let target := path.normalize depth
    let left := depth - target.length
    let folded := value.limit left
    let after := t.write path value strong depth
    after = t.write target value (strong && decide (target = path)) depth ∧
      (strong = true ∧ target = path → after.subtree target depth = folded) ∧
      (¬ (strong = true ∧ target = path) → ∀ rest, after.coverOn (target ++ rest) depth =
        (t.coverOn (target ++ rest) depth).join (folded.coverOn rest depth)) ∧
      (∀ other, .wildcard ∉ other → ¬ target <+: other →
        after.coverOn other depth = t.coverOn other depth ∧
          (after.Reaches (fieldNames other) ↔
            t.Reaches (fieldNames other) ∨ other <+: target)) ∧
      (∀ rest : Path, rest.length < left →
        folded.coverOn rest depth = value.coverOn rest depth) ∧
      (∀ rest : Path, .wildcard ∉ rest → rest.length = left →
        folded.subtree rest depth = leaf (value.read rest depth)) ∧
      value.collect.sources.le (after.read path depth) = true := by
  intro target left folded after
  refine ⟨write_normalize t value path strong depth, ?_, coverOn_write_weak t value,
    fun other hfields h =>
      ⟨coverOn_write t value strong hfields h, reaches_write t value strong hfields h⟩,
    fun rest h => coverOn_limit value h depth, ?_, FrameSet.le_of_passes fun q f h => ?_⟩
  · rintro ⟨rfl, htarget⟩
    exact subtree_write_strong t value htarget
  · intro rest hfields hlength
    show (value.limit left).subtree _ _ = _
    rw [← hlength]
    exact subtree_limit value hfields depth
  · obtain ⟨hf, hpasses⟩ := FrameSet.passes_sources.1 h
    exact passes_read_write t strong hf hpasses

end TaintTree

end TaintFlow
