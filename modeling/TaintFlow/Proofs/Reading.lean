import TaintFlow.Proofs.Lattice
import TaintFlow.TaintTree

/-!
What can be read of a tree. A tree holds a source kind at every chain of fields, listed or not: an
unlisted field has what its parent has (`Node.Holds`). Every operation on trees is described by what
its result holds, and none of them loses a source: a join holds what either side holds, a write
what it replaces nothing of, and merging fields only adds. Infos, and the frames of arguments, have
no part in this.
-/

namespace TaintFlow

/-! ### Frame sets -/

namespace FrameSet

def Has (s : FrameSet) (f : Frame) : Prop := ∃ info, s.get? f = some info

instance (s : FrameSet) (f : Frame) : Decidable (s.Has f) :=
  decidable_of_iff (s.get? f).isSome Option.isSome_iff_exists

variable {s t : FrameSet} {f : Frame}

theorem not_has_empty (f : Frame) : ¬ Has ∅ f := fun ⟨_, h⟩ => by cases h

theorem has_iff_mem : s.Has f ↔ ∃ info, (f, info) ∈ s.entries := by
  simp only [Has, OrdMap.get?_eq_some_iff]

theorem has_join : (s.join t).Has f ↔ s.Has f ∨ t.Has f := by
  unfold Has
  rw [join, OrdMap.get?_union]
  cases s.get? f <;> cases t.get? f <;> simp

theorem has_filter {p : Frame → FrameInfo → Bool} (hp : ∀ info info', p f info = p f info') :
    FrameSet.Has (OrdMap.filter p s) f ↔ s.Has f ∧ p f ∅ = true := by
  unfold Has
  rw [OrdMap.get?_filter]
  cases s.get? f with
  | none => simp
  | some info => simp [Option.filter_eq_some_iff, hp info ∅]

theorem has_mapValues {g : Frame → FrameInfo → FrameInfo} :
    FrameSet.Has (OrdMap.mapValues g s) f ↔ s.Has f := by
  unfold Has
  rw [OrdMap.get?_mapValues]
  cases s.get? f <;> simp

theorem has_add {f' : Frame} {info : FrameInfo} : (s.add f info).Has f' ↔ f' = f ∨ s.Has f' := by
  unfold Has
  rw [get?_add]
  by_cases h : f' = f <;> simp [h]

theorem has_ofList {frames : List (Frame × FrameInfo)} :
    (ofList frames).Has f ↔ ∃ info, (f, info) ∈ frames := by
  have hstep (s : FrameSet) (e : Frame × FrameInfo) :
      (s.add e.1 e.2).Has f ↔ s.Has f ∨ f = e.1 := has_add.trans or_comm
  refine (foldl_iff (P := (Has · f)) hstep frames ∅).trans ((or_iff_right (not_has_empty f)).trans ?_)
  exact ⟨fun ⟨e, he, h⟩ => ⟨e.2, h ▸ he⟩, fun ⟨info, h⟩ => ⟨(f, info), h, rfl⟩⟩

theorem has_mapFrames {g : Frame → FrameInfo → Option (Frame × FrameInfo)} :
    (s.mapFrames g).Has f ↔ ∃ e ∈ s.entries, ∃ info, g e.1 e.2 = some (f, info) := by
  rw [mapFrames, has_ofList]
  simp only [List.mem_filterMap]
  exact ⟨fun ⟨info, e, he, h⟩ => ⟨e, he, info, h⟩, fun ⟨e, he, info, h⟩ => ⟨info, e, he, h⟩⟩

theorem below_of_source (hf : f.isArgument = false) (path : Path) (depth : Nat) :
    f.below path depth = f := by
  obtain ⟨label, transforms, sanitizers⟩ := f
  cases label with
  | kind id => rfl
  | argument index own => cases hf

theorem isArgument_below (f : Frame) (path : Path) (depth : Nat) :
    (f.below path depth).isArgument = f.isArgument := by
  obtain ⟨label, transforms, sanitizers⟩ := f
  cases label <;> rfl

/-- A source is the same at every path below. -/
theorem has_below (hf : f.isArgument = false) {path : Path} {depth : Nat} :
    (s.below path depth).Has f ↔ s.Has f := by
  rw [below, has_mapFrames, has_iff_mem]
  constructor
  · rintro ⟨e, he, info, h⟩
    obtain ⟨hbelow, hinfo⟩ := Prod.mk.inj (Option.some.inj h)
    have hsource : e.1.isArgument = false := by rw [← isArgument_below e.1 path depth, hbelow, hf]
    rw [below_of_source hsource] at hbelow
    exact ⟨e.2, hbelow ▸ he⟩
  · rintro ⟨info, h⟩
    exact ⟨(f, info), h, info, by rw [below_of_source hf]⟩

theorem has_of_le (h : le s t = true) (hf : s.Has f) : t.Has f := by
  obtain ⟨info, hinfo⟩ := hf
  obtain ⟨info', hinfo', -⟩ := le_iff.1 h f info hinfo
  exact ⟨info', hinfo'⟩

theorem not_has_of_isEmpty (h : OrdMap.isEmpty s = true) : ¬ s.Has f := by
  rintro ⟨info, hinfo⟩
  rw [OrdMap.isEmpty_iff.1 h f] at hinfo
  cases hinfo

end FrameSet

/-! ### Nodes -/

namespace Node

def Holds (t : Node) : List String → Frame → Prop
  | [], f => t.frames.Has f
  | name :: names, f =>
    match t.child? name with
    | some child => child.Holds names f
    | none => t.frames.Has f

/-- Every source that one node holds is held by another at the same chain of fields. -/
def Sub (t t' : Node) : Prop :=
  ∀ names f, f.isArgument = false → t.Holds names f → t'.Holds names f

variable {t t' u u' : Node} {f : Frame} {depth : Nat}

theorem Sub.refl (t : Node) : Sub t t := fun _ _ _ h => h

theorem Sub.trans (h : Sub t t') (h' : Sub t' u) : Sub t u :=
  fun names f hf hholds => h' names f hf (h names f hf hholds)

theorem holds_bare {fs : FrameSet} {names : List String} :
    (bare fs).Holds names f ↔ fs.Has f := by
  cases names <;> rfl

theorem holds_field_nil {name : String} {child rest : Node} :
    (field name child rest).Holds [] f ↔ rest.Holds [] f := Iff.rfl

theorem holds_field_cons {name n : String} {names : List String} {child rest : Node} :
    (field name child rest).Holds (n :: names) f ↔
      if n = name then child.Holds names f else rest.Holds (n :: names) f := by
  by_cases h : n = name <;> simp [Holds, child?, frames, h]

theorem holds_step (hf : f.isArgument = false) {name : String} {names : List String} :
    (t.step name depth).Holds names f ↔ t.Holds (name :: names) f := by
  simp only [Holds, step]
  cases t.child? name with
  | some child => rfl
  | none => exact holds_bare.trans (FrameSet.has_below hf)

theorem Sub.step (h : Sub t t') (name : String) : Sub (t.step name depth) (t'.step name depth) :=
  fun names f hf hholds => (holds_step hf).2 (h (name :: names) f hf ((holds_step hf).1 hholds))

theorem frames_put (t : Node) (name : String) (child : Node) :
    (t.put name child).frames = t.frames := by
  induction t with
  | bare fs => rfl
  | field n c rest _ ih =>
    unfold put
    split
    · rfl
    · rfl
    · exact ih

theorem child?_put (t : Node) (name n : String) (child : Node) :
    (t.put name child).child? n = if n = name then some child else t.child? n := by
  induction t with
  | bare fs => rfl
  | field m c rest _ ih =>
    unfold put
    split
    · rfl
    · next hcmp =>
      obtain rfl := LinearOrd.eq_of_compare hcmp
      simp only [child?]
      split <;> rfl
    · next hcmp =>
      have hne : m ≠ name := LinearOrd.ne_of_lt (LinearOrd.lt_of_gt hcmp)
      simp only [child?, ih]
      by_cases hm : n = m
      · simp [hm, hne]
      · simp [hm]

theorem holds_put_nil {name : String} {child : Node} :
    (t.put name child).Holds [] f ↔ t.Holds [] f := by
  simp only [Holds, frames_put]

theorem holds_put_cons {name n : String} {names : List String} {child : Node} :
    (t.put name child).Holds (n :: names) f ↔
      if n = name then child.Holds names f else t.Holds (n :: names) f := by
  by_cases h : n = name <;> simp [Holds, child?_put, frames_put, h]

theorem frames_erase (t : Node) (name : String) : (t.erase name).frames = t.frames := by
  induction t with
  | bare fs => rfl
  | field n c rest _ ih =>
    unfold erase
    split
    · rfl
    · exact ih

theorem holds_erase_nil {name : String} : (t.erase name).Holds [] f ↔ t.Holds [] f := by
  simp only [Holds, frames_erase]

theorem child?_erase {name n : String} (h : n ≠ name) (t : Node) :
    (t.erase name).child? n = t.child? n := by
  induction t with
  | bare fs => rfl
  | field m child rest _ ih =>
    unfold erase
    split
    · next hm =>
      subst hm
      simp only [child?, h, if_false]
    · simp only [child?, ih]

theorem holds_erase_cons {name n : String} (h : n ≠ name) {names : List String} :
    (t.erase name).Holds (n :: names) f ↔ t.Holds (n :: names) f := by
  simp only [Holds, child?_erase h, frames_erase]

/-! ### Joins -/

theorem holds_overlay (hf : f.isArgument = false) {fs : FrameSet} {names : List String} :
    (overlay depth fs t).Holds names f ↔ t.Holds names f ∨ fs.Has f := by
  induction t generalizing fs names with
  | bare own =>
    rw [overlay, holds_bare, holds_bare]
    exact FrameSet.has_join
  | field name child rest ihChild ihRest =>
    rw [overlay]
    cases names with
    | nil =>
      rw [holds_field_nil, holds_field_nil]
      exact ihRest
    | cons n names =>
      rw [holds_field_cons, holds_field_cons]
      split
      · exact ihChild.trans (or_congr_right (FrameSet.has_below hf))
      · exact ihRest

/-- A join holds what either side holds. -/
theorem holds_join (hf : f.isArgument = false) {names : List String} :
    (join depth t u).Holds names f ↔ t.Holds names f ∨ u.Holds names f := by
  induction t generalizing u names with
  | bare fs =>
    rw [join, holds_overlay hf, holds_bare]
    exact or_comm
  | field name child rest ihChild ihRest =>
    rw [join]
    cases names with
    | nil => rw [holds_put_nil, ihRest, holds_erase_nil, holds_field_nil]
    | cons n names =>
      rw [holds_put_cons, holds_field_cons]
      split
      · next hn => rw [hn, ihChild, holds_step hf]
      · next hn => rw [ihRest, holds_erase_cons hn]

theorem Sub.join (h : Sub t t') (h' : Sub u u') :
    Sub (join depth t u) (join depth t' u') := fun names f hf hholds =>
  (holds_join hf).2 (((holds_join hf).1 hholds).imp (h names f hf) (h' names f hf))

/-- If a join brings nothing new, then neither do the sources. -/
theorem sub_of_le (h : le depth t u = true) : Sub t u := by
  intro names f hf
  induction u generalizing t names with
  | bare fs =>
    obtain ⟨hframes, hnames⟩ := Bool.and_eq_true_iff.1 h
    cases t with
    | field name child rest => cases hnames
    | bare own =>
      rw [holds_bare, holds_bare]
      exact FrameSet.has_of_le hframes
  | field name child rest ihChild ihRest =>
    obtain ⟨hchild, hrest⟩ := Bool.and_eq_true_iff.1 h
    intro hholds
    cases names with
    | nil => exact ihRest hrest [] (holds_erase_nil.2 hholds)
    | cons n names =>
      rw [holds_field_cons]
      split
      · next hn =>
        subst hn
        exact ihChild hchild names ((holds_step hf).2 hholds)
      · next hn => exact ihRest hrest (n :: names) ((holds_erase_cons hn).2 hholds)

/-! ### All frames -/

theorem has_collect_of_holds {names : List String} (h : t.Holds names f) : t.collect.Has f := by
  induction t generalizing names with
  | bare fs => exact FrameSet.has_join.2 (.inl (holds_bare.1 h))
  | field name child rest ihChild ihRest =>
    have hrest : rest.collect.Has f → (field name child rest).collect.Has f := fun hmem =>
      FrameSet.has_join.2 ((FrameSet.has_join.1 hmem).imp id fun hmem =>
        FrameSet.has_join.2 (.inr hmem))
    cases names with
    | nil => exact hrest (ihRest (holds_field_nil.1 h))
    | cons n names =>
      rw [holds_field_cons] at h
      split at h
      · exact FrameSet.has_join.2 (.inr (FrameSet.has_join.2 (.inl (ihChild h))))
      · exact hrest (ihRest h)

theorem child?_eq_none {name : String} (h : name ∉ t.names) : t.child? name = none := by
  induction t with
  | bare fs => rfl
  | field n child rest _ ih =>
    obtain ⟨hn, hrest⟩ := not_or.1 (mt List.mem_cons.2 h)
    simp only [child?, hn, if_false]
    exact ih hrest

/-- What all nodes have is what is held somewhere. -/
theorem has_collect (ht : t.Ordered) : t.collect.Has f ↔ ∃ names, t.Holds names f := by
  refine ⟨fun h => ?_, fun ⟨names, h⟩ => has_collect_of_holds h⟩
  induction t with
  | bare fs =>
    refine ⟨[], (FrameSet.has_join.1 h).elim id fun h => ?_⟩
    exact absurd h (FrameSet.not_has_empty f)
  | field name child rest ihChild ihRest =>
    obtain ⟨hlt, hchild, hrest⟩ := ht
    have hsplit : child.collect.Has f ∨ rest.collect.Has f := by
      rcases FrameSet.has_join.1 h with h | h
      · exact .inr (FrameSet.has_join.2 (.inl h))
      · rcases FrameSet.has_join.1 h with h | h
        · exact .inl h
        · exact .inr (FrameSet.has_join.2 (.inr h))
    rcases hsplit with h | h
    · obtain ⟨names, hnames⟩ := ihChild hchild h
      exact ⟨name :: names, by rwa [holds_field_cons, if_pos rfl]⟩
    · obtain ⟨names, hnames⟩ := ihRest hrest h
      cases names with
      | nil => exact ⟨[], hnames⟩
      | cons n names =>
        by_cases hn : n = name
        · -- the field is not listed again, so this is what the parent has
          have hnone : rest.child? n = none := child?_eq_none fun hmem =>
            LinearOrd.ne_of_lt (hlt n hmem) hn.symm
          refine ⟨[], ?_⟩
          simp only [Holds, hnone] at hnames
          exact hnames
        · exact ⟨n :: names, by rwa [holds_field_cons, if_neg hn]⟩

theorem Sub.has_collect (h : Sub t t') (ht : t.Ordered) (hf : f.isArgument = false)
    (hmem : t.collect.Has f) : t'.collect.Has f := by
  obtain ⟨names, hnames⟩ := (Node.has_collect ht).1 hmem
  exact has_collect_of_holds (h names f hf hnames)

theorem not_holds_of_isEmpty (h : t.isEmpty = true) (names : List String) :
    ¬ t.Holds names f := by
  induction t generalizing names with
  | bare fs =>
    rw [holds_bare]
    exact FrameSet.not_has_of_isEmpty h
  | field name child rest ihChild ihRest =>
    obtain ⟨hchild, hrest⟩ := Bool.and_eq_true_iff.1 h
    cases names with
    | nil => exact ihRest hrest []
    | cons n names =>
      rw [holds_field_cons]
      split
      · exact ihChild hchild names
      · exact ihRest hrest (n :: names)

/-! ### Subtrees -/

theorem holds_subtree_bare (hf : f.isArgument = false) {fs : FrameSet} (path : Path)
    {names : List String} : ((bare fs).subtree depth path).Holds names f ↔ fs.Has f := by
  cases path with
  | nil => exact holds_bare
  | cons s path =>
    cases s with
    | wildcard =>
      refine holds_bare.trans (FrameSet.has_join.trans (or_iff_left ?_))
      exact FrameSet.not_has_empty f
    | field name => exact holds_bare.trans (FrameSet.has_below hf)

theorem holds_subtree_field (hf : f.isArgument = false) {name : String} {path : Path}
    {names : List String} :
    (t.subtree depth (.field name :: path)).Holds names f ↔
      ((t.step name depth).subtree depth path).Holds names f := by
  rw [subtree, step]
  cases t.child? name with
  | some child => rfl
  | none =>
    show (bare _).Holds names f ↔ ((bare _).subtree depth path).Holds names f
    rw [holds_bare, holds_subtree_bare hf, FrameSet.has_below hf, FrameSet.has_below hf]

theorem Sub.subtree (h : Sub t t') (ht : t.Ordered) (path : Path) :
    Sub (t.subtree depth path) (t'.subtree depth path) := by
  induction path generalizing t t' with
  | nil => exact h
  | cons s path ih =>
    intro names f hf hholds
    cases s with
    | wildcard => exact holds_bare.2 (h.has_collect ht hf (holds_bare.1 hholds))
    | field name =>
      rw [holds_subtree_field hf] at hholds ⊢
      exact ih (h.step name) (ht.step name depth) names f hf hholds

/-! ### Writes -/

/-- Changing a node at a chain of fields is monotone if the change is. -/
theorem Sub.modifyAt {g g' : Node → Node} (hg : ∀ u u', Sub u u' → Sub (g u) (g' u'))
    (h : Sub t t') (path : List String) :
    Sub (t.modifyAt depth g path) (t'.modifyAt depth g' path) := by
  induction path generalizing t t' with
  | nil => exact hg t t' h
  | cons name path ih =>
    intro names f hf hholds
    rw [Node.modifyAt] at hholds ⊢
    cases names with
    | nil =>
      rw [holds_put_nil] at hholds ⊢
      exact h [] f hf hholds
    | cons n names =>
      rw [holds_put_cons] at hholds ⊢
      split at hholds
      · next hn =>
        rw [if_pos hn]
        exact ih (h.step name) names f hf hholds
      · next hn =>
        rw [if_neg hn]
        exact h (n :: names) f hf hholds

/-- Joining a node into another one below a chain of fields adds what it holds there. -/
theorem holds_modifyAt_join (hf : f.isArgument = false) {path names : List String} :
    (t.modifyAt depth (fun t => t.join depth u) path).Holds names f ↔
      t.Holds names f ∨ ∃ rest, names = path ++ rest ∧ u.Holds rest f := by
  induction path generalizing t names with
  | nil =>
    rw [Node.modifyAt, holds_join hf]
    simp
  | cons name path ih =>
    rw [Node.modifyAt]
    cases names with
    | nil =>
      rw [holds_put_nil]
      simp
    | cons n names =>
      rw [holds_put_cons]
      split
      · next hn =>
        subst hn
        rw [ih, holds_step hf]
        simp
      · next hn =>
        refine (or_iff_left ?_).symm
        rintro ⟨rest, heq, -⟩
        exact hn (List.cons.inj heq).1

/-- Below the depth that is kept, a node holds what was held further down. -/
theorem holds_limit (ht : t.Ordered) {names : List String} :
    (limit depth t).Holds names f ↔
      if names.length < depth then t.Holds names f
      else ∃ rest, t.Holds (names.take depth ++ rest) f := by
  induction t generalizing depth names with
  | bare fs => cases depth <;> simp [limit, holds_bare]
  | field name child rest ihChild ihRest =>
    cases depth with
    | zero =>
      show (bare (field name child rest).collect).Holds names f ↔ _
      rw [holds_bare, has_collect ht]
      simp
    | succ depth =>
      obtain ⟨-, hchild, hrest⟩ := ht
      rw [limit]
      cases names with
      | nil =>
        rw [holds_field_nil, ihRest hrest]
        simp [holds_field_nil]
      | cons n names =>
        rw [holds_field_cons]
        by_cases hn : n = name
        · rw [if_pos hn, ihChild hchild]
          simp [holds_field_cons, hn]
        · rw [if_neg hn, ihRest hrest]
          simp [holds_field_cons, hn]

theorem Sub.limit (h : Sub t t') (ht : t.Ordered) (ht' : t'.Ordered) :
    Sub (Node.limit depth t) (Node.limit depth t') := by
  intro names f hf hholds
  rw [holds_limit ht] at hholds
  rw [holds_limit ht']
  split at hholds
  · next hlt =>
    rw [if_pos hlt]
    exact h names f hf hholds
  · next hlt =>
    obtain ⟨rest, hrest⟩ := hholds
    rw [if_neg hlt]
    exact ⟨rest, h _ f hf hrest⟩

/-! ### Changes of frames -/

theorem holds_mapFrames {g : Frame → FrameInfo → Option (Frame × FrameInfo)}
    (hg : ∀ f info info', (g f info).map Prod.fst = (g f info').map Prod.fst)
    {names : List String} :
    (t.mapFrames (FrameSet.mapFrames g)).Holds names f ↔
      ∃ own, t.Holds names own ∧ (g own ∅).map Prod.fst = some f := by
  have hframes (fs : FrameSet) : (fs.mapFrames g).Has f ↔
      ∃ own, fs.Has own ∧ (g own ∅).map Prod.fst = some f := by
    rw [FrameSet.has_mapFrames]
    constructor
    · rintro ⟨e, he, info, h⟩
      exact ⟨e.1, FrameSet.has_iff_mem.2 ⟨e.2, he⟩, by rw [hg e.1 ∅ e.2, h]; rfl⟩
    · rintro ⟨own, hown, h⟩
      obtain ⟨info, hmem⟩ := FrameSet.has_iff_mem.1 hown
      rw [hg own ∅ info] at h
      obtain ⟨⟨_, info'⟩, hsome, rfl⟩ := Option.map_eq_some_iff.1 h
      exact ⟨(own, info), hmem, info', hsome⟩
  induction t generalizing names with
  | bare fs =>
    rw [mapFrames, holds_bare, hframes]
    simp only [holds_bare]
  | field name child rest ihChild ihRest =>
    rw [mapFrames]
    cases names with
    | nil =>
      simp only [holds_field_nil]
      exact ihRest
    | cons n names =>
      simp only [holds_field_cons]
      split
      · exact ihChild
      · exact ihRest

/-! ### Merging fields -/

theorem sub_settle (limit : Nat) (c : Collapsed) : Sub c.node (settle limit c).node := by
  intro names f _ h
  unfold settle
  split
  · exact h
  · split
    · exact h
    · refine holds_bare.2 (FrameSet.has_join.2 ?_)
      exact (FrameSet.has_join.1 (has_collect_of_holds h)).imp id FrameSet.has_mapValues.2

/-- Merging fields loses nothing. -/
theorem sub_collapseFields (limit : Nat) (t : Node) : Sub t (t.collapseFields limit).node := by
  induction t with
  | bare fs => exact .refl _
  | field name child rest ihChild ihRest =>
    intro names f hf h
    rw [collapseFields]
    cases names with
    | nil => exact ihRest [] f hf h
    | cons n names =>
      rw [holds_field_cons] at h ⊢
      split at h
      · next hn =>
        rw [if_pos hn]
        exact (ihChild.trans (sub_settle limit _)) names f hf h
      · next hn =>
        rw [if_neg hn]
        exact ihRest (n :: names) f hf h

theorem settle_of_not_any {limit : Nat} {c : Collapsed} (h : (settle limit c).any = false) :
    (settle limit c).node = c.node ∧ c.any = false := by
  unfold settle at h ⊢
  split at h
  · next hzero =>
    rw [if_pos hzero]
    exact ⟨rfl, h⟩
  · next hzero =>
    rw [if_neg hzero]
    split at h
    · next hle =>
      rw [if_pos hle]
      exact ⟨rfl, h⟩
    · cases h

/-- Where nothing is merged, nothing changes. -/
theorem collapseFields_of_not_any {limit : Nat} (h : (t.collapseFields limit).any = false) :
    (t.collapseFields limit).node = t := by
  induction t with
  | bare fs => rfl
  | field name child rest ihChild ihRest =>
    obtain ⟨hchild, hrest⟩ := Bool.or_eq_false_iff.1 h
    obtain ⟨hsettle, hany⟩ := settle_of_not_any hchild
    show field name (settle limit (child.collapseFields limit)).node _ = _
    rw [hsettle, ihChild hany, ihRest hrest]

end Node

end TaintFlow
