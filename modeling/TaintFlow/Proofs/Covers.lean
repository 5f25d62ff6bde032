import TaintFlow.Proofs.Listing

/-!
Joins, node by node. What a set reports of a frame is found out by tests that a join passes if and
only if one of its sides does (`FrameInfo.Test`), such as whether a feature is reported, or no trace
up to a given one preferred. Sets that pass the same tests are the same, so that every equation
about joins of sets is one about "or". The step to a field distributes over the join of nodes,
whether the field is listed or not (`Node.step_join`); hence at every chain of fields a join covers
what both sides cover, and it lists the chains that either lists.
-/

namespace TaintFlow

/-! ### Tests -/

/-- A question about infos that a join answers with yes if and only if one of its sides does. -/
structure FrameInfo.Test where
  passes : FrameInfo → Prop
  passes_join : ∀ i j, passes (i.join j) ↔ passes i ∨ passes j

namespace FrameInfo.Test

def anything : Test := ⟨fun _ => True, fun _ _ => by simp⟩

def reports (feature : String) : Test where
  passes i := feature ∈ i.features
  passes_join _ _ := OrdSet.mem_union

def notAfter (trace : Trace) : Test where
  passes i := Trace.before trace i.trace = false
  passes_join i j := by
    unfold join
    by_cases h : Trace.before j.trace i.trace = true
    · have hle : Trace.before i.trace j.trace = false := Trace.before_asymm h
      simp only [h, if_true]
      exact ⟨.inr, fun hor => hor.elim (Trace.before_trans · hle) id⟩
    · have hle : Trace.before j.trace i.trace = false := by simpa using h
      simp only [h, Bool.false_eq_true, if_false]
      exact ⟨.inl, fun hor => hor.elim id (Trace.before_trans · hle)⟩

/-- Only the empty trace is not after the empty one. -/
theorem passes_notAfter_nil {i : FrameInfo} : (notAfter []).passes i ↔ i.trace = [] := by
  show Trace.before [] i.trace = false ↔ _
  cases i.trace with
  | nil => exact iff_of_true (Trace.before_self []) rfl
  | cons step trace =>
    have hbefore : Trace.before [] (step :: trace) = true := rfl
    simp [hbefore]

end FrameInfo.Test

open FrameInfo (Test)

/-- Infos that pass the same tests are the same. -/
theorem FrameInfo.ext_of_passes {i j : FrameInfo} (h : ∀ q : Test, q.passes i ↔ q.passes j) :
    i = j := by
  have hle {i j : FrameInfo} (h : ∀ q : Test, q.passes i ↔ q.passes j) : i.le j = true :=
    le_iff.2 ⟨fun feature hfeature => (h (.reports feature)).1 hfeature,
      (h (.notAfter i.trace)).1 (Trace.before_self i.trace)⟩
  exact le_antisymm (hle h) (hle fun q => (h q).symm)

namespace FrameSet

variable {s t u : FrameSet} {f : Frame} {q : Test} {path : Path} {depth : Nat}

def Passes (s : FrameSet) (q : Test) (f : Frame) : Prop :=
  ∃ info, s.get? f = some info ∧ q.passes info

theorem Passes.has (h : s.Passes q f) : s.Has f :=
  let ⟨info, hinfo, _⟩ := h
  ⟨info, hinfo⟩

theorem passes_anything : s.Passes .anything f ↔ s.Has f :=
  ⟨Passes.has, fun ⟨info, hinfo⟩ => ⟨info, hinfo, trivial⟩⟩

theorem not_passes_empty : ¬ Passes ∅ q f := fun ⟨_, h, _⟩ => by cases h

theorem passes_iff_of_get? {info : FrameInfo} (h : s.get? f = some info) :
    s.Passes q f ↔ q.passes info := by
  simp [Passes, h]

/-- Sets that pass the same tests are the same. -/
theorem ext_of_passes (h : ∀ q f, s.Passes q f ↔ t.Passes q f) : s = t := by
  refine OrdMap.ext fun f => ?_
  cases hs : s.get? f with
  | none =>
    cases ht : t.get? f with
    | none => rfl
    | some info =>
      obtain ⟨own, hown, -⟩ := (h .anything f).2 ⟨info, ht, trivial⟩
      rw [hs] at hown
      cases hown
  | some info =>
    obtain ⟨info', ht, -⟩ := (h .anything f).1 ⟨info, hs, trivial⟩
    have hinfo : info = info' := FrameInfo.ext_of_passes fun q => by
      rw [← passes_iff_of_get? hs, ← passes_iff_of_get? ht, h]
    rw [ht, hinfo]

theorem passes_join : (s.join t).Passes q f ↔ s.Passes q f ∨ t.Passes q f := by
  unfold Passes
  rw [join, OrdMap.get?_union]
  cases s.get? f <;> cases t.get? f <;> simp [q.passes_join]

theorem passes_add {f' : Frame} {info : FrameInfo} :
    (s.add f info).Passes q f' ↔ s.Passes q f' ∨ f' = f ∧ q.passes info := by
  unfold Passes
  rw [get?_add]
  by_cases h : f' = f
  · subst h
    cases s.get? f' <;> simp [q.passes_join]
  · simp [h]

theorem passes_ofList {frames : List (Frame × FrameInfo)} :
    (ofList frames).Passes q f ↔ ∃ info, (f, info) ∈ frames ∧ q.passes info := by
  have hstep (s : FrameSet) (e : Frame × FrameInfo) :
      (s.add e.1 e.2).Passes q f ↔ s.Passes q f ∨ f = e.1 ∧ q.passes e.2 := passes_add
  refine (foldl_iff (P := (Passes · q f)) hstep frames ∅).trans
    ((or_iff_right not_passes_empty).trans ?_)
  exact ⟨fun ⟨e, he, hf, hq⟩ => ⟨e.2, hf ▸ he, hq⟩, fun ⟨info, h, hq⟩ => ⟨(f, info), h, rfl, hq⟩⟩

theorem passes_mapFrames {g : Frame → FrameInfo → Option (Frame × FrameInfo)} :
    (s.mapFrames g).Passes q f ↔
      ∃ own info info', s.get? own = some info ∧ g own info = some (f, info') ∧ q.passes info' := by
  rw [mapFrames, passes_ofList]
  simp only [List.mem_filterMap, OrdMap.get?_eq_some_iff]
  constructor
  · rintro ⟨info', ⟨e, he, heq⟩, hq⟩
    exact ⟨e.1, e.2, info', he, heq, hq⟩
  · rintro ⟨own, info, info', he, heq, hq⟩
    exact ⟨info', ⟨(own, info), he, heq⟩, hq⟩

theorem passes_below :
    (s.below path depth).Passes q f ↔ ∃ own, s.Passes q own ∧ own.below path depth = f := by
  rw [below, passes_mapFrames]
  constructor
  · rintro ⟨own, info, info', hinfo, heq, hq⟩
    obtain ⟨rfl, rfl⟩ := Prod.mk.inj (Option.some.inj heq)
    exact ⟨own, ⟨info, hinfo, hq⟩, rfl⟩
  · rintro ⟨own, ⟨info, hinfo, hq⟩, rfl⟩
    exact ⟨own, info, info, hinfo, rfl, hq⟩

/-! ### Equations -/

theorem join_comm (s t : FrameSet) : s.join t = t.join s :=
  ext_of_passes fun _ _ => by simp only [passes_join, or_comm]

theorem below_join (s t : FrameSet) (path : Path) (depth : Nat) :
    (s.join t).below path depth = (s.below path depth).join (t.below path depth) :=
  ext_of_passes fun _ _ => by
    simp only [passes_below, passes_join, or_and_right, exists_or]

end FrameSet

/-! ### Nodes -/

namespace Node

variable {depth : Nat} {t u : Node} {name : String} {names : List String} {path : Path}
  {fs : FrameSet} {q : Test} {f : Frame}

theorem step_field_self (child rest : Node) (name : String) :
    (field name child rest).step name depth = child := by
  simp [step, child?]

theorem step_field_of_ne {n : String} (h : n ≠ name) (child rest : Node) :
    (field name child rest).step n depth = rest.step n depth := by
  simp [step, child?, h, frames]

theorem step_put (t child : Node) (name n : String) :
    (t.put name child).step n depth = if n = name then child else t.step n depth := by
  rw [step, child?_put, frames_put]
  split <;> rfl

theorem step_erase_of_ne {n : String} (h : n ≠ name) (t : Node) :
    (t.erase name).step n depth = t.step n depth := by
  rw [step, child?_erase h, frames_erase, step]

theorem step_overlay (fs : FrameSet) (t : Node) (name : String) :
    (overlay depth fs t).step name depth =
      overlay depth (fs.below [.field name] depth) (t.step name depth) := by
  rw [step, step, child?_overlay, frames_overlay, FrameSet.below_join]
  cases t.child? name <;> rfl

theorem frames_join_eq (t u : Node) (depth : Nat) :
    (join depth t u).frames = t.frames.join u.frames := by
  induction t generalizing u with
  | bare fs => exact (frames_overlay fs u).trans (FrameSet.join_comm u.frames fs)
  | field name child rest _ ih => rw [join, frames_put, ih, frames_erase, frames]

/-- What a join has at a field is the join of what both sides have there. -/
theorem step_join (t u : Node) (name : String) (depth : Nat) :
    (join depth t u).step name depth = join depth (t.step name depth) (u.step name depth) := by
  induction t generalizing u with
  | bare fs => exact step_overlay fs u name
  | field n child rest _ ih =>
    rw [join, step_put]
    by_cases h : name = n
    · subst h
      rw [if_pos rfl, step_field_self]
    · rw [if_neg h, ih, step_erase_of_ne h, step_field_of_ne h]

/-- A join lists the fields that either side lists. -/
theorem isSome_child?_join (t u : Node) (name : String) (depth : Nat) :
    ((join depth t u).child? name).isSome ↔
      (t.child? name).isSome ∨ (u.child? name).isSome := by
  induction t generalizing u with
  | bare fs => simp [join, child?_overlay, child?]
  | field n child rest _ ih =>
    rw [join, child?_put, child?]
    by_cases h : name = n
    · simp [h]
    · simp only [h, if_false, ih, child?_erase h]

/-! ### Chains of fields -/

def descend (depth : Nat) (t : Node) (names : List String) : Node :=
  names.foldl (fun t name => t.step name depth) t

/-- The frames at a chain of fields, refined where the chain leaves what is listed. -/
def cover (depth : Nat) (t : Node) (names : List String) : FrameSet :=
  (t.descend depth names).frames

def Reaches : Node → List String → Prop
  | _, [] => True
  | t, name :: names => ∃ child, t.child? name = some child ∧ child.Reaches names

theorem reaches_singleton : t.Reaches [name] ↔ (t.child? name).isSome := by
  simp [Reaches, Option.isSome_iff_exists]

/-- A chain that goes on below a field is listed only if the field is. -/
theorem reaches_step (t : Node) (depth : Nat) (name n : String) (names : List String) :
    (t.step name depth).Reaches (n :: names) ↔ t.Reaches (name :: n :: names) := by
  rw [step, Reaches.eq_2 t name]
  cases hname : t.child? name with
  | none => simp [Reaches, child?]
  | some child => simp

theorem descend_join (t u : Node) (names : List String) (depth : Nat) :
    (join depth t u).descend depth names =
      join depth (t.descend depth names) (u.descend depth names) := by
  induction names generalizing t u with
  | nil => rfl
  | cons name names ih =>
    calc (join depth t u).descend depth (name :: names)
      _ = ((join depth t u).step name depth).descend depth names := rfl
      _ = (join depth (t.step name depth) (u.step name depth)).descend depth names := by
        rw [step_join]
      _ = _ := ih _ _

/-- At every chain of fields a join covers what both sides cover. -/
theorem cover_join (t u : Node) (names : List String) (depth : Nat) :
    (join depth t u).cover depth names = (t.cover depth names).join (u.cover depth names) := by
  rw [cover, descend_join, frames_join_eq, cover, cover]

/-- A join lists the chains of fields that either side lists. -/
theorem reaches_join : (join depth t u).Reaches names ↔ t.Reaches names ∨ u.Reaches names := by
  induction names generalizing t u with
  | nil => simp [Reaches]
  | cons name names ih =>
    cases names with
    | nil => rw [reaches_singleton, reaches_singleton, reaches_singleton, isSome_child?_join]
    | cons n names =>
      rw [← reaches_step _ depth, step_join, ih, reaches_step, reaches_step]

theorem name_mem_of_reaches (h : t.Reaches (name :: names)) : name ∈ t.names := by
  obtain ⟨child, hchild, -⟩ := h
  by_cases hname : name ∈ t.names
  · exact hname
  · rw [child?_eq_none hname] at hchild
    cases hchild

/-- The nodes below the listed fields are those that a chain of listed fields leads to. -/
theorem mem_listFields (ht : t.Ordered) (depth : Nat) {e : Path × FrameSet} :
    e ∈ t.listFields path ↔ OrdMap.isEmpty e.2 = false ∧ ∃ name names,
      e.1 = path ++ (name :: names).map Segment.field ∧ t.Reaches (name :: names) ∧
        t.cover depth (name :: names) = e.2 := by
  induction t generalizing path with
  | bare fs => simp [listFields, Reaches, child?]
  | field n child rest ihChild ihRest =>
    obtain ⟨hlt, hchild, hrest⟩ := ht
    have hself (names : List String) :
        (field n child rest).Reaches (n :: names) ↔ child.Reaches names := by
      simp [Reaches, child?]
    have hcover (names : List String) :
        (field n child rest).cover depth (n :: names) = child.cover depth names := by
      simp [cover, descend, step_field_self]
    have hother {name : String} (h : name ≠ n) (names : List String) :
        ((field n child rest).Reaches (name :: names) ↔ rest.Reaches (name :: names)) ∧
          (field n child rest).cover depth (name :: names) = rest.cover depth (name :: names) := by
      simp [Reaches, child?, h, cover, descend, step_field_of_ne]
    rw [listFields, List.mem_append, List.mem_append, mem_listed, ihChild hchild, ihRest hrest]
    constructor
    · rintro ((⟨hpath, hfs, hempty⟩ | ⟨hempty, name, names, hpath, hreaches, hfs⟩) |
        ⟨hempty, name, names, hpath, hreaches, hfs⟩)
      · exact ⟨hempty, n, [], hpath, (hself []).2 trivial, (hcover []).trans hfs.symm⟩
      · exact ⟨hempty, n, name :: names, by simpa using hpath, (hself _).2 hreaches,
          (hcover _).trans hfs⟩
      · have hne : name ≠ n := (LinearOrd.ne_of_lt (hlt name (name_mem_of_reaches hreaches))).symm
        exact ⟨hempty, name, names, hpath, (hother hne names).1.2 hreaches,
          (hother hne names).2.trans hfs⟩
    · rintro ⟨hempty, name, names, hpath, hreaches, hfs⟩
      by_cases hname : name = n
      · subst hname
        rw [hself] at hreaches
        rw [hcover] at hfs
        refine .inl ?_
        cases names with
        | nil => exact .inl ⟨hpath, hfs.symm, hempty⟩
        | cons name' names =>
          exact .inr ⟨hempty, name', names, by simpa using hpath, hreaches, hfs⟩
      · exact .inr ⟨hempty, name, names, hpath, (hother hname names).1.1 hreaches,
          (hother hname names).2.symm.trans hfs⟩

end Node

/-- The nodes of a tree are those that a chain of listed fields leads to, if they have frames. -/
theorem TaintTree.mem_nodes {t : TaintTree} (depth : Nat) {e : Path × FrameSet} :
    e ∈ t.nodes ↔ OrdMap.isEmpty e.2 = false ∧ ∃ names,
      e.1 = names.map Segment.field ∧ t.root.Reaches names ∧ t.root.cover depth names = e.2 := by
  rw [nodes, List.mem_append, Node.mem_listed, Node.mem_listFields t.ordered depth]
  constructor
  · rintro (⟨hpath, hfs, hempty⟩ | ⟨hempty, name, names, hpath, hreaches, hfs⟩)
    · exact ⟨hempty, [], hpath, trivial, hfs.symm⟩
    · exact ⟨hempty, name :: names, hpath, hreaches, hfs⟩
  · rintro ⟨hempty, _ | ⟨name, names⟩, hpath, hreaches, hfs⟩
    · exact .inl ⟨hpath, hfs.symm, hempty⟩
    · exact .inr ⟨hempty, name, names, hpath, hreaches, hfs⟩

end TaintFlow
