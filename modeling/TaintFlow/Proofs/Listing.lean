import TaintFlow.Proofs.Sources

/-!
Where frames are listed. A join lists what both sides list, whatever the frames stand for
(`Node.Lists`); frames of parameters are refined on their way down, so that what a node holds of
them at a field that is not listed depends on the field. A node that has a frame, refined, at all
its fields (`Node.Carries`) has it at every path below. Merging fields moves frames up, to a shorter
chain of fields.
-/

namespace TaintFlow

theorem FrameSet.has_below_of_has {s : FrameSet} {f : Frame} (h : s.Has f) (path : Path)
    (depth : Nat) : (s.below path depth).Has (f.below path depth) := by
  obtain ⟨info, hinfo⟩ := has_iff_mem.1 h
  exact has_mapFrames.2 ⟨(f, info), hinfo, info, rfl⟩

/-- Refining a frame by one field and then by others. -/
theorem Frame.below_below (f : Frame) (name : String) (path : Path) (depth : Nat) :
    (f.below [.field name] depth).below path depth = f.below (.field name :: path) depth := by
  obtain ⟨label, transforms, sanitizers⟩ := f
  cases label with
  | kind id => rfl
  | argument index own =>
    simp only [below, Frame.mk.injEq, Label.argument.injEq, and_true, true_and, List.append_assoc]
    congr 1
    cases hroom : depth - own.length with
    | zero =>
      have hless : depth - (own ++ Path.normalize [.field name] 0).length = 0 := by
        simpa [Path.normalize] using hroom
      rw [hless]
      rfl
    | succ room =>
      have hless : depth - (own ++ Path.normalize [.field name] (room + 1)).length = room := by
        simp [Path.normalize]
        omega
      rw [hless]
      simp [Path.normalize]

namespace Node

variable {t t' u : Node} {f : Frame} {depth : Nat} {name : String} {names : List String}

/-! ### Listed frames -/

/-- The fields of a chain are listed, one below the other, and the last node has a frame itself. -/
def Lists : Node → List String → Frame → Prop
  | t, [], f => t.frames.Has f
  | t, name :: names, f => ∃ child, t.child? name = some child ∧ child.Lists names f

theorem mem_listed {path : Path} {fs : FrameSet} {e : Path × FrameSet} :
    e ∈ listed path fs ↔ e.1 = path ∧ e.2 = fs ∧ OrdMap.isEmpty e.2 = false := by
  unfold listed
  split
  · next h =>
    refine ⟨nofun, fun ⟨_, hfs, hempty⟩ => ?_⟩
    rw [hfs, h] at hempty
    cases hempty
  · next h =>
    rw [List.mem_singleton, Prod.ext_iff]
    refine and_congr_right fun _ => (and_iff_left_of_imp fun hfs => ?_).symm
    rw [hfs]
    simpa using h

theorem mem_listed_of_has {fs : FrameSet} (h : fs.Has f) (path : Path) :
    (path, fs) ∈ listed path fs := by
  refine mem_listed.2 ⟨rfl, rfl, ?_⟩
  rw [Bool.eq_false_iff]
  exact fun hempty => FrameSet.not_has_of_isEmpty hempty h

/-- A frame that is listed at a chain of fields is in the listing of the fields. -/
theorem mem_listFields_of_lists (h : t.Lists (name :: names) f) (path : Path) :
    ∃ fs, (path ++ (name :: names).map Segment.field, fs) ∈ t.listFields path ∧ fs.Has f := by
  induction t generalizing name names path with
  | bare fs =>
    obtain ⟨child, hchild, -⟩ := h
    cases hchild
  | field n child rest ihChild ihRest =>
    obtain ⟨own, hown, hlists⟩ := h
    rw [child?] at hown
    rw [listFields]
    split at hown
    · next hn =>
      cases hown
      subst hn
      cases names with
      | nil =>
        have hlisted := mem_listed_of_has hlists (path ++ [.field name])
        exact ⟨_, List.mem_append_left _ (List.mem_append_left _ hlisted), hlists⟩
      | cons n' names =>
        obtain ⟨fs, hfs, hf⟩ := ihChild hlists (path ++ [.field name])
        refine ⟨fs, List.mem_append_left _ (List.mem_append_right _ ?_), hf⟩
        simpa using hfs
    · obtain ⟨fs, hfs, hf⟩ := ihRest ⟨own, hown, hlists⟩ path
      exact ⟨fs, List.mem_append_right _ hfs, hf⟩

theorem child?_overlay (fs : FrameSet) (t : Node) (name : String) :
    (overlay depth fs t).child? name =
      (t.child? name).map (overlay depth (fs.below [.field name] depth)) := by
  induction t with
  | bare own => rfl
  | field n child rest _ ih =>
    rw [overlay, child?, child?]
    split
    · next hn =>
      subst hn
      rfl
    · exact ih

theorem frames_overlay (fs : FrameSet) (t : Node) :
    (overlay depth fs t).frames = t.frames.join fs := by
  induction t with
  | bare own => rfl
  | field n child rest _ ih => exact ih

theorem Lists.overlay (h : t.Lists names f) (fs : FrameSet) :
    (overlay depth fs t).Lists names f := by
  induction names generalizing t fs with
  | nil =>
    rw [Lists, frames_overlay]
    exact FrameSet.has_join.2 (.inl h)
  | cons name names ih =>
    obtain ⟨child, hchild, hlists⟩ := h
    exact ⟨_, by rw [child?_overlay, hchild]; rfl, ih hlists _⟩

theorem frames_join (t u : Node) (depth : Nat) :
    ∀ f, (join depth t u).frames.Has f ↔ t.frames.Has f ∨ u.frames.Has f := by
  intro f
  induction t generalizing u with
  | bare fs =>
    rw [join, frames_overlay]
    exact FrameSet.has_join.trans or_comm
  | field name child rest _ ih =>
    rw [join, frames_put, ih, frames_erase]
    rfl

theorem Lists.join_left (h : t.Lists names f) (u : Node) : (join depth t u).Lists names f := by
  induction t generalizing names u with
  | bare fs =>
    cases names with
    | nil => exact (frames_join _ _ _ _).2 (.inl h)
    | cons name names =>
      obtain ⟨child, hchild, -⟩ := h
      cases hchild
  | field n child rest ihChild ihRest =>
    cases names with
    | nil => exact (frames_join _ _ _ _).2 (.inl h)
    | cons name names =>
      obtain ⟨own, hown, hlists⟩ := h
      rw [join, Lists]
      simp only [child?_put]
      rw [child?] at hown
      split at hown
      · next hn =>
        cases hown
        exact ⟨_, if_pos hn, ihChild hlists _⟩
      · next hn =>
        have hrest : rest.Lists (name :: names) f := ⟨own, hown, hlists⟩
        obtain ⟨child', hchild', hlists'⟩ := ihRest hrest (u.erase n)
        exact ⟨child', by rw [if_neg hn, hchild'], hlists'⟩

theorem Lists.join_right (h : u.Lists names f) (t : Node) : (join depth t u).Lists names f := by
  induction t generalizing names u with
  | bare fs => exact h.overlay fs
  | field n child rest ihChild ihRest =>
    cases names with
    | nil => exact (frames_join _ _ _ _).2 (.inr h)
    | cons name names =>
      obtain ⟨own, hown, hlists⟩ := h
      rw [join, Lists]
      simp only [child?_put]
      by_cases hn : name = n
      · subst hn
        refine ⟨_, if_pos rfl, ihChild ?_⟩
        rw [step, hown]
        exact hlists
      · have herase : (u.erase n).Lists (name :: names) f :=
          ⟨own, (child?_erase hn u).trans hown, hlists⟩
        obtain ⟨child', hchild', hlists'⟩ := ihRest herase
        exact ⟨child', by rw [if_neg hn, hchild'], hlists'⟩

theorem Lists.modifyAt_join (h : t.Lists names f) (u : Node) (path : List String) :
    (t.modifyAt depth (fun t => t.join depth u) path).Lists names f := by
  induction path generalizing t names with
  | nil => exact h.join_left u
  | cons n path ih =>
    rw [Node.modifyAt]
    cases names with
    | nil =>
      rw [Lists, frames_put]
      exact h
    | cons name names =>
      obtain ⟨own, hown, hlists⟩ := h
      simp only [Lists, child?_put]
      by_cases hn : name = n
      · subst hn
        refine ⟨_, if_pos rfl, ih ?_⟩
        rw [step, hown]
        exact hlists
      · exact ⟨own, by rw [if_neg hn, hown], hlists⟩

/-- What is joined in below a chain of fields is listed there. -/
theorem lists_modifyAt_join (h : u.Lists names f) (t : Node) (path : List String) :
    (t.modifyAt depth (fun t => t.join depth u) path).Lists (path ++ names) f := by
  induction path generalizing t with
  | nil => exact h.join_right t
  | cons n path ih =>
    rw [Node.modifyAt, List.cons_append]
    exact ⟨_, (child?_put _ _ _ _).trans (if_pos rfl), ih _⟩

theorem Lists.limit (h : t.Lists names f) (hlength : names.length ≤ depth) :
    (limit depth t).Lists names f := by
  induction t generalizing names depth with
  | bare fs => cases depth <;> exact h
  | field n child rest ihChild ihRest =>
    cases depth with
    | zero =>
      obtain rfl := List.length_eq_zero_iff.1 (Nat.le_zero.1 hlength)
      exact FrameSet.has_join.2 (.inl h)
    | succ depth =>
      rw [Node.limit]
      cases names with
      | nil =>
        have hrest : rest.Lists [] f := h
        exact ihRest hrest hlength
      | cons name names =>
        obtain ⟨own, hown, hlists⟩ := h
        rw [child?] at hown
        simp only [Lists, child?]
        split at hown
        · next hn =>
          cases hown
          rw [if_pos hn]
          exact ⟨_, rfl, ihChild hlists (Nat.le_of_succ_le_succ hlength)⟩
        · next hn =>
          rw [if_neg hn]
          have hrest : rest.Lists (name :: names) f := ⟨own, hown, hlists⟩
          exact ihRest hrest hlength

/-! ### Merging -/

theorem Lists.holds (h : t.Lists names f) : t.Holds names f := by
  induction names generalizing t with
  | nil => exact h
  | cons name names ih =>
    obtain ⟨child, hchild, hlists⟩ := h
    rw [Holds, hchild]
    exact ih hlists

theorem Lists.has_collect (h : t.Lists names f) : t.collect.Has f := has_collect_of_holds h.holds

theorem Lists.settle {c : Collapsed} (h : c.node.Lists names f) (limit : Nat) :
    ∃ names', names' <+: names ∧ (settle limit c).node.Lists names' f := by
  unfold Node.settle
  split
  · exact ⟨names, List.prefix_refl names, h⟩
  · split
    · exact ⟨names, List.prefix_refl names, h⟩
    · refine ⟨[], List.nil_prefix, FrameSet.has_join.2 ?_⟩
      exact (FrameSet.has_join.1 h.has_collect).imp_right FrameSet.has_mapValues.2

theorem Lists.collapseFields (h : t.Lists names f) (limit : Nat) :
    ∃ names', names' <+: names ∧ (t.collapseFields limit).node.Lists names' f := by
  induction t generalizing names with
  | bare fs => exact ⟨names, List.prefix_refl names, h⟩
  | field n child rest ihChild ihRest =>
    cases names with
    | nil =>
      have hrest : rest.Lists [] f := h
      obtain ⟨names', hshorter, hlists⟩ := ihRest hrest
      obtain rfl := List.prefix_nil.1 hshorter
      exact ⟨[], hshorter, hlists⟩
    | cons name names =>
      obtain ⟨own, hown, hlists⟩ := h
      rw [child?] at hown
      rw [Node.collapseFields]
      split at hown
      · next hn =>
        cases hown
        obtain ⟨names', hshorter, hlists'⟩ := ihChild hlists
        obtain ⟨names'', hshorter', hsettled⟩ := hlists'.settle limit
        exact ⟨name :: names'', List.prefix_cons_inj name |>.2 (hshorter'.trans hshorter),
          _, if_pos hn, hsettled⟩
      · next hn =>
        have hrest : rest.Lists (name :: names) f := ⟨own, hown, hlists⟩
        obtain ⟨names', hshorter, hlists'⟩ := ihRest hrest
        cases names' with
        | nil => exact ⟨[], List.nil_prefix, hlists'⟩
        | cons name' names' =>
          obtain ⟨rfl, -⟩ := List.cons_prefix_cons.1 hshorter
          obtain ⟨own', hown', hlists'⟩ := hlists'
          exact ⟨name' :: names', hshorter, own', (if_neg hn).trans hown', hlists'⟩

/-- Merging fields invents no frame. -/
theorem has_settle {c : Collapsed} {limit : Nat} (h : (settle limit c).node.collect.Has f) :
    c.node.collect.Has f := by
  unfold settle at h
  split at h
  · exact h
  · split at h
    · exact h
    · refine FrameSet.has_join.2 ?_
      rcases FrameSet.has_join.1 h with h | h
      · exact (FrameSet.has_join.1 h).imp_right FrameSet.has_mapValues.1
      · exact absurd h (FrameSet.not_has_empty f)

theorem has_collect_field {child rest : Node} : (field name child rest).collect.Has f ↔
    child.collect.Has f ∨ rest.collect.Has f := by
  simp only [collect, frames, collectFields, FrameSet.has_join]
  grind

theorem has_collapseFields {limit : Nat} (h : (t.collapseFields limit).node.collect.Has f) :
    t.collect.Has f := by
  induction t with
  | bare fs => exact h
  | field n child rest ihChild ihRest =>
    exact has_collect_field.2 ((has_collect_field.1 h).imp (fun h => ihChild (has_settle h)) ihRest)

/-! ### Frames at every field -/

/-- A node has a frame, refined by the fields on the way, at all the fields that it lists. -/
def Carries (depth : Nat) : Frame → Node → Prop
  | f, bare fs => fs.Has f
  | f, field name child rest =>
    Carries depth (f.below [.field name] depth) child ∧ Carries depth f rest

theorem Carries.frames (h : t.Carries depth f) : t.frames.Has f := by
  induction t with
  | bare fs => exact h
  | field n child rest _ ih => exact ih h.2

theorem Carries.child? (h : t.Carries depth f) (hu : t.child? name = some u) :
    u.Carries depth (f.below [.field name] depth) := by
  induction t with
  | bare fs => cases hu
  | field n child rest _ ih =>
    unfold Node.child? at hu
    split at hu
    · next hn =>
      cases hu
      exact hn ▸ h.1
    · exact ih h.2 hu

theorem Carries.step (h : t.Carries depth f) (name : String) :
    (t.step name depth).Carries depth (f.below [.field name] depth) := by
  unfold Node.step
  cases hu : t.child? name with
  | none => exact FrameSet.has_below_of_has h.frames _ _
  | some u => exact h.child? hu

theorem Carries.put (h : t.Carries depth f) (hu : u.Carries depth (f.below [.field name] depth)) :
    (t.put name u).Carries depth f := by
  induction t with
  | bare fs => exact ⟨hu, h⟩
  | field n child rest _ ih =>
    unfold Node.put
    split
    · exact ⟨hu, h⟩
    · exact ⟨hu, h.2⟩
    · exact ⟨h.1, ih h.2⟩

theorem carries_overlay {fs : FrameSet} (h : fs.Has f) (t : Node) :
    (overlay depth fs t).Carries depth f := by
  induction t generalizing f fs with
  | bare own => exact FrameSet.has_join.2 (.inr h)
  | field n child rest ihChild ihRest =>
    exact ⟨ihChild (FrameSet.has_below_of_has h _ _), ihRest h⟩

theorem Carries.join_left (h : t.Carries depth f) (u : Node) :
    (join depth t u).Carries depth f := by
  induction t generalizing f u with
  | bare fs => exact carries_overlay h u
  | field n child rest ihChild ihRest => exact (ihRest h.2 (u.erase n)).put (ihChild h.1 _)

theorem Carries.modifyAt_join (h : t.Carries depth f) (u : Node) (path : List String) :
    (t.modifyAt depth (fun t => t.join depth u) path).Carries depth f := by
  induction path generalizing t f with
  | nil => exact h.join_left u
  | cons n path ih => exact h.put (ih (h.step n))

/-- What is read below a node that carries a frame has the frame, refined by the path. -/
theorem Carries.subtree (h : t.Carries depth f) {path : Path} (hpath : .wildcard ∉ path) :
    (t.subtree depth path).frames.Has (f.below path depth) := by
  induction path generalizing t f with
  | nil =>
    have hbelow : f.below [] depth = f := by
      obtain ⟨label, transforms, sanitizers⟩ := f
      cases label with
      | kind id => rfl
      | argument index own => simp [Frame.below, Path.normalize]
    rw [hbelow]
    exact h.frames
  | cons s path ih =>
    cases s with
    | wildcard => exact absurd List.mem_cons_self hpath
    | field name =>
      unfold Node.subtree
      cases hu : t.child? name with
      | none => exact FrameSet.has_below_of_has h.frames _ _
      | some u =>
        rw [← Frame.below_below]
        exact ih (h.child? hu) fun hmem => hpath (List.mem_cons_of_mem _ hmem)

end Node

end TaintFlow
