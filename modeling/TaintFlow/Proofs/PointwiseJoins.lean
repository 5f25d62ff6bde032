import TaintFlow.Proofs.RelatedWalks
import TaintFlow.Proofs.StaleCopies

/-!
Trees as functions of field chains. A tree is determined by the chains of fields that it lists and
the frames that it covers at every chain (`Node.ext_of_cover`), and joining brings nothing new if
and only if both are there already (`Node.le_iff`). What a tree covers is read off the deepest node
that it lists on the chain (`Node.deepest`). So the join of trees is the join of what they cover,
chain by chain, and inherits its laws from the joins of frame sets.
-/

namespace TaintFlow

/-! ### Frame sets -/

namespace FrameSet

theorem join_self (s : FrameSet) : s.join s = s := join_eq_left (le_refl s)

theorem join_assoc (s t u : FrameSet) : (s.join t).join u = s.join (t.join u) :=
  ext_of_passes fun _ _ => by simp only [passes_join, or_assoc]

theorem le_iff_join_eq {s t : FrameSet} : s.le t = true ↔ t.join s = t :=
  ⟨join_eq_left, fun h => h ▸ le_join_right t s⟩

theorem below_le_below {s t : FrameSet} (h : s.le t = true) (path : Path) (depth : Nat) :
    (s.below path depth).le (t.below path depth) = true := by
  rw [le_iff_join_eq, ← below_join, join_eq_left h]

theorem below_nil (s : FrameSet) (depth : Nat) : s.below [] depth = s := by
  have hself (f : Frame) : f.below [] depth = f := by
    obtain ⟨label, transforms, sanitizers⟩ := f
    cases label <;> simp [Frame.below, Path.normalize]
  exact ext_of_passes fun _ _ => by simp only [passes_below, hself, exists_eq_right]

/-- Refining frames by one field and then by others. -/
theorem below_below (s : FrameSet) (name : String) (path : Path) (depth : Nat) :
    (s.below [.field name] depth).below path depth = s.below (.field name :: path) depth :=
  ext_of_passes fun q f => by
    simp only [passes_below]
    constructor
    · rintro ⟨_, ⟨own, hown, rfl⟩, rfl⟩
      exact ⟨own, hown, (own.below_below name path depth).symm⟩
    · rintro ⟨own, hown, rfl⟩
      exact ⟨_, ⟨own, hown, rfl⟩, own.below_below name path depth⟩

theorem closedRel_eq : ClosedRel (· = ·) where
  refl _ := rfl
  join h h' := congrArg₂ join h h'
  below path depth h := congrArg (below · path depth) h
  addFeature feature h := congrArg (addFeature · feature) h
  copies p limit h := congrArg (mapFrames (p.copy limit)) h
  isEmpty h := congrArg OrdMap.isEmpty h

end FrameSet

/-! ### Nodes -/

namespace Node

variable {depth : Nat} {s t u child rest : Node} {name n : String} {names : List String}

theorem reaches_field_self : (field name child rest).Reaches (name :: names) ↔
    child.Reaches names := by
  simp [Reaches, child?]

theorem cover_cons (t : Node) (depth : Nat) (name : String) (names : List String) :
    t.cover depth (name :: names) = (t.step name depth).cover depth names := rfl

theorem cover_field_self (child rest : Node) (name : String) (names : List String) :
    (field name child rest).cover depth (name :: names) = child.cover depth names := by
  rw [cover_cons, step_field_self]

theorem step_of_unlisted (h : t.child? name = none) (depth : Nat) :
    t.step name depth = bare (t.frames.below [.field name] depth) := by
  rw [step, h, Option.getD_none]

/-- Below a node without fields there is what refining its frames gives. -/
theorem cover_bare (fs : FrameSet) (names : List String) (depth : Nat) :
    (bare fs).cover depth names = fs.below (names.map Segment.field) depth := by
  induction names generalizing fs with
  | nil => exact (fs.below_nil depth).symm
  | cons name names ih =>
    calc (bare fs).cover depth (name :: names)
      _ = (bare (fs.below [.field name] depth)).cover depth names := rfl
      _ = (fs.below [.field name] depth).below (names.map Segment.field) depth := ih _
      _ = fs.below ((name :: names).map Segment.field) depth := fs.below_below name _ depth

def deepest (depth : Nat) (t : Node) : List String → FrameSet
  | [] => t.frames
  | name :: names =>
    match t.child? name with
    | some child => child.deepest depth names
    | none => t.frames.below ((name :: names).map Segment.field) depth

theorem deepest_eq_cover (t : Node) (depth : Nat) (names : List String) :
    t.deepest depth names = t.cover depth names := by
  induction names generalizing t with
  | nil => rfl
  | cons name names ih =>
    rw [deepest, cover_cons, step]
    cases t.child? name with
    | some child => exact ih child
    | none =>
      rw [Option.getD_none, cover_bare, FrameSet.below_below]
      rfl

/-- What is covered at a chain of fields is what the node read there carries itself. -/
theorem frames_subtree (t : Node) (depth : Nat) (names : List String) :
    (t.subtree depth (names.map Segment.field)).frames = t.deepest depth names := by
  induction names generalizing t with
  | nil => rfl
  | cons name names ih =>
    rw [List.map_cons, subtree, deepest]
    cases t.child? name with
    | some child => exact ih child
    | none => rfl

theorem erase_field_self (name : String) (child rest : Node) :
    (field name child rest).erase name = rest := if_pos rfl

/-- Without a field the chains that begin with other fields are left. -/
theorem reaches_erase (ht : t.Ordered) :
    (t.erase name).Reaches (n :: names) ↔ n ≠ name ∧ t.Reaches (n :: names) := by
  by_cases hn : n = name
  · subst hn
    simp [Reaches, child?_erase_self ht]
  · simp [Reaches, child?_erase hn, hn]

theorem cover_erase_self (ht : t.Ordered) (name : String) (names : List String) :
    (t.erase name).cover depth (name :: names) =
      t.frames.below ((name :: names).map Segment.field) depth := by
  rw [cover_cons, step_of_unlisted (child?_erase_self ht name), frames_erase, cover_bare,
    FrameSet.below_below]
  rfl

theorem cover_erase_of_ne (hn : n ≠ name) (t : Node) (names : List String) :
    (t.erase name).cover depth (n :: names) = t.cover depth (n :: names) := by
  rw [cover_cons, cover_cons, step_erase_of_ne hn]

/-- Covers that are related stay so without a field, where refining keeps related sets related. -/
theorem cover_erase_rel {r : FrameSet → FrameSet → Prop}
    (hbelow : ∀ {fs fs'} path depth, r fs fs' → r (fs.below path depth) (fs'.below path depth))
    (hs : s.Ordered) (ht : t.Ordered) (h : ∀ names, r (s.cover depth names) (t.cover depth names))
    (name : String) (names : List String) :
    r ((s.erase name).cover depth names) ((t.erase name).cover depth names) := by
  have hframes : r s.frames t.frames := h []
  rcases names with _ | ⟨n, names⟩
  · show r (s.erase name).frames (t.erase name).frames
    rwa [frames_erase, frames_erase]
  · by_cases hn : n = name
    · subst hn
      rw [cover_erase_self hs, cover_erase_self ht]
      exact hbelow _ depth hframes
    · rw [cover_erase_of_ne hn, cover_erase_of_ne hn]
      exact h (n :: names)

/-- Nodes that list each other's first fields begin with the same field. -/
theorem first_eq {child' rest' : Node} (ht : (field name child rest).Ordered)
    (hu : (field n child' rest').Ordered) (hname : name ∈ (field n child' rest').names)
    (hn : n ∈ (field name child rest).names) : name = n := by
  rcases List.mem_cons.1 hname with h | h
  · exact h
  · rcases List.mem_cons.1 hn with h' | h'
    · exact h'.symm
    · exact absurd rfl (LinearOrd.ne_of_lt (LinearOrd.lt_trans (hu.1 name h) (ht.1 n h')))

/-- Nodes that list the same chains of fields, with related covers, are related. -/
theorem related_of_cover {r : FrameSet → FrameSet → Prop} (hr : FrameSet.ClosedRel r)
    (depth : Nat) (ht : t.Ordered) (hu : u.Ordered)
    (hreaches : ∀ names, t.Reaches names ↔ u.Reaches names)
    (hcover : ∀ names, r (t.cover depth names) (u.cover depth names)) : Related r t u := by
  induction t generalizing u with
  | bare fs =>
    cases u with
    | bare fs' => exact .bare (hcover [])
    | field n child' rest' =>
      obtain ⟨child, hchild, -⟩ := (hreaches [n]).2 (reaches_field_self.2 trivial)
      cases hchild
  | field name child rest ihChild ihRest =>
    cases u with
    | bare fs' =>
      obtain ⟨child', hchild', -⟩ := (hreaches [name]).1 (reaches_field_self.2 trivial)
      cases hchild'
    | field n child' rest' =>
      obtain rfl : name = n := first_eq ht hu
        (name_mem_of_reaches ((hreaches [name]).1 (reaches_field_self.2 trivial)))
        (name_mem_of_reaches ((hreaches [n]).2 (reaches_field_self.2 trivial)))
      have hchild : Related r child child' := by
        refine ihChild ht.2.1 hu.2.1 (fun names => ?_) (fun names => ?_)
        · simpa only [reaches_field_self] using hreaches (name :: names)
        · simpa only [cover_field_self] using hcover (name :: names)
      have hrest : Related r rest rest' := by
        refine ihRest ht.2.2 hu.2.2 (fun names => ?_) (fun names => ?_)
        · rcases names with _ | ⟨m, names⟩
          · exact Iff.rfl
          · rw [← erase_field_self name child rest, ← erase_field_self name child' rest',
              reaches_erase ht, reaches_erase hu, hreaches]
        · rw [← erase_field_self name child rest, ← erase_field_self name child' rest']
          exact cover_erase_rel hr.below ht hu hcover name names
      exact .field name hchild hrest

theorem Related.eq (h : Related (· = ·) t u) : t = u := by
  induction h with
  | bare h => exact congrArg Node.bare h
  | field name _ _ ihChild ihRest => exact congrArg₂ (Node.field name) ihChild ihRest

/-- A node is determined by the chains of fields that it lists and what it covers. -/
theorem ext_of_cover (ht : t.Ordered) (hu : u.Ordered)
    (hreaches : ∀ names, t.Reaches names ↔ u.Reaches names)
    (hcover : ∀ names, t.cover depth names = u.cover depth names) : t = u :=
  (related_of_cover FrameSet.closedRel_eq depth ht hu hreaches hcover).eq

/-- Joining brings nothing new if and only if no chain of fields is new and nothing is at any
chain. -/
theorem le_iff (hs : s.Ordered) (ht : t.Ordered) : s.le depth t = true ↔
    (∀ names, s.Reaches names → t.Reaches names) ∧
      ∀ names, (s.cover depth names).le (t.cover depth names) = true := by
  constructor
  · intro hle
    have hjoin : t.join depth s = t := join_eq_left ht hle
    refine ⟨fun names h => hjoin ▸ reaches_join.2 (.inr h), fun names => ?_⟩
    rw [FrameSet.le_iff_join_eq, ← cover_join, hjoin]
  · rintro ⟨hreaches, hcover⟩
    induction t generalizing s with
    | bare fs =>
      refine Bool.and_eq_true_iff.2 ⟨hcover [], ?_⟩
      cases s with
      | bare own => rfl
      | field n c r =>
        obtain ⟨child, hchild, -⟩ := hreaches [n] (reaches_field_self.2 trivial)
        cases hchild
    | field name child rest ihChild ihRest =>
      have hchild : (s.step name depth).le depth child = true := by
        refine ihChild (hs.step name depth) ht.2.1 (fun names h => ?_) (fun names => ?_)
        · rcases names with _ | ⟨m, names⟩
          · trivial
          · exact reaches_field_self.1 (hreaches _ ((reaches_step s depth name m names).1 h))
        · rw [← cover_field_self child rest name]
          exact hcover (name :: names)
      have hrest : (s.erase name).le depth rest = true := by
        refine ihRest (hs.erase name) ht.2.2 (fun names h => ?_) (fun names => ?_)
        · rcases names with _ | ⟨m, names⟩
          · trivial
          · obtain ⟨hm, h⟩ := (reaches_erase hs).1 h
            rw [← erase_field_self name child rest]
            exact (reaches_erase ht).2 ⟨hm, hreaches _ h⟩
        · rw [← erase_field_self name child rest]
          exact cover_erase_rel (r := fun fs fs' => fs.le fs' = true)
            (fun path depth h => FrameSet.below_le_below h path depth) hs ht hcover name names
      exact Bool.and_eq_true_iff.2 ⟨hchild, hrest⟩

end Node

/-! ### Trees -/

namespace TaintTree

variable {t u : TaintTree} {depth : Nat}

def Reaches (t : TaintTree) (names : List String) : Prop := t.root.Reaches names

def coverAt (t : TaintTree) (names : List String) (depth : Nat) : FrameSet :=
  t.root.deepest depth names

theorem frames_root_subtree (t : TaintTree) (names : List String) (depth : Nat) :
    (t.subtree (names.map Segment.field) depth).root.frames = t.coverAt names depth :=
  t.root.frames_subtree depth names

theorem ext_of_coverAt (depth : Nat)
    (hreaches : ∀ names, t.Reaches names ↔ u.Reaches names)
    (hcover : ∀ names, t.coverAt names depth = u.coverAt names depth) : t = u := by
  have hroot : t.root = u.root :=
    Node.ext_of_cover t.ordered u.ordered hreaches fun names => by
      rw [← Node.deepest_eq_cover, ← Node.deepest_eq_cover]
      exact hcover names
  cases t
  cases u
  congr 1

theorem reaches_join {names : List String} :
    (t.join u depth).Reaches names ↔ t.Reaches names ∨ u.Reaches names :=
  Node.reaches_join

theorem coverAt_join (t u : TaintTree) (names : List String) (depth : Nat) :
    (t.join u depth).coverAt names depth =
      (t.coverAt names depth).join (u.coverAt names depth) := by
  rw [coverAt, coverAt, coverAt, Node.deepest_eq_cover, Node.deepest_eq_cover,
    Node.deepest_eq_cover]
  exact Node.cover_join t.root u.root names depth

theorem join_comm (t u : TaintTree) (depth : Nat) : t.join u depth = u.join t depth :=
  ext_of_coverAt depth (fun _ => by rw [reaches_join, reaches_join, or_comm])
    fun _ => by rw [coverAt_join, coverAt_join, FrameSet.join_comm]

theorem join_assoc (t u v : TaintTree) (depth : Nat) :
    (t.join u depth).join v depth = t.join (u.join v depth) depth :=
  ext_of_coverAt depth (fun _ => by simp only [reaches_join, or_assoc])
    fun _ => by simp only [coverAt_join, FrameSet.join_assoc]

theorem join_self (t : TaintTree) (depth : Nat) : t.join t depth = t :=
  ext_of_coverAt depth (fun _ => by rw [reaches_join, or_self])
    fun _ => by rw [coverAt_join, FrameSet.join_self]

theorem le_iff_join_eq : u.le t depth = true ↔ t.join u depth = t := by
  refine ⟨join_eq_left, fun h => (Node.le_iff u.ordered t.ordered).2
    ⟨fun names hu => ?_, fun names => ?_⟩⟩
  · exact (h ▸ reaches_join.2 (.inr hu) : t.Reaches names)
  · rw [FrameSet.le_iff_join_eq, ← Node.cover_join]
    exact congrArg (·.root.cover depth names) h

theorem le_refl (t : TaintTree) (depth : Nat) : t.le t depth = true :=
  le_iff_join_eq.2 (join_self t depth)

theorem le_join_left (t u : TaintTree) (depth : Nat) : t.le (t.join u depth) depth = true := by
  rw [le_iff_join_eq, join_comm, ← join_assoc, join_self]

theorem le_join_right (t u : TaintTree) (depth : Nat) : u.le (t.join u depth) depth = true := by
  rw [join_comm]
  exact le_join_left u t depth

theorem le_trans {v : TaintTree} (h : t.le u depth = true) (h' : u.le v depth = true) :
    t.le v depth = true := by
  rw [le_iff_join_eq] at h h' ⊢
  calc v.join t depth
    _ = (v.join u depth).join t depth := by rw [h']
    _ = v.join (u.join t depth) depth := join_assoc v u t depth
    _ = v := by rw [h, h']

/-- The join of trees is the join at every chain of fields: it has the nodes of both, and covers
what both cover. So joins may be made in any order and repeated, the empty tree adds nothing, and
a join brings something new if and only if it changes the tree. -/
theorem join_pointwise (depth : Nat) (t u : TaintTree) :
    (∀ names, (t.join u depth).Reaches names ↔ t.Reaches names ∨ u.Reaches names) ∧
      (∀ names, (t.join u depth).coverAt names depth =
        (t.coverAt names depth).join (u.coverAt names depth)) ∧
      t.join u depth = u.join t depth ∧
      (∀ v, (t.join u depth).join v depth = t.join (u.join v depth) depth) ∧
      t.join t depth = t ∧
      t.join ∅ depth = t ∧ (∅ : TaintTree).join t depth = t ∧
      (u.le t depth = false ↔ t.join u depth ≠ t) := by
  refine ⟨fun _ => reaches_join, fun names => coverAt_join t u names depth, join_comm t u depth,
    fun v => join_assoc t u v depth, join_self t depth, join_empty t, empty_join t, ?_⟩
  rw [← Bool.not_eq_true, ne_eq, not_congr le_iff_join_eq]

end TaintTree

end TaintFlow
