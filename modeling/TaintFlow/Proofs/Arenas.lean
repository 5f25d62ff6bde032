import Mathlib.Data.List.Induction
import TaintFlow.Memory.Arena
import TaintFlow.Proofs.Containers

/-!
What an arena of locations keeps. The root of a location is the location of a site, a location with
a longer path is a field of the location one field before it, and a location knows the numbers of
its fields (`Arena.WellFormed`). So a number can be read off a root and a path, one field after
another (`Arena.WellFormed.eq_of_path`), and no location has two numbers.
-/

namespace TaintFlow

structure Cell.Keeps (c c' : Cell) : Prop where
  root : c'.root = c.root
  path : c'.path = c.path
  fields : ∀ s id, c.fields.get? s = some id → c'.fields.get? s = some id

theorem Cell.Keeps.refl (c : Cell) : c.Keeps c := ⟨rfl, rfl, fun _ _ h => h⟩

theorem Cell.Keeps.trans {c c' c'' : Cell} (h : c.Keeps c') (h' : c'.Keeps c'') : c.Keeps c'' where
  root := h'.root.trans h.root
  path := h'.path.trans h.path
  fields s id hid := h'.fields s id (h.fields s id hid)

theorem Cell.keeps_insert {c : Cell} {s : Segment} (h : c.fields.get? s = none) (id : LocationId) :
    c.Keeps { c with fields := c.fields.insert s id } where
  root := rfl
  path := rfl
  fields s' id' hid := by
    have hne : s' ≠ s := by
      rintro rfl
      rw [h] at hid
      cases hid
    show (c.fields.insert s id).get? s' = some id'
    rw [OrdMap.get?_insert, if_neg hne, hid]

namespace Arena

variable {a a' a'' : Arena} {site site' : Site} {id id' child parent : LocationId} {c c' : Cell}
  {s : Segment} {path : Path} {depth : Nat}

/-! ### Cells -/

theorem cell?_of_method (h : id.method = a.method) : a.cell? id = a.cells[id.index]? := if_pos h

theorem cell?_next (a : Arena) : a.cell? a.next = none :=
  (cell?_of_method rfl).trans (List.getElem?_eq_none (Nat.le_refl _))

theorem ne_next_of_cell? (h : a.cell? id = some c) : id ≠ a.next := by
  rintro rfl
  rw [cell?_next] at h
  cases h

theorem method_of_cell? (h : a.cell? id = some c) : id.method = a.method := by
  rw [cell?] at h
  split at h
  · assumption
  · cases h

theorem cell?_allocate (a : Arena) (root : Option LocationId) (path : Path) (id : LocationId) :
    (a.allocate root path).cell? id =
      if id = a.next then some ⟨root.getD a.next, path, ∅⟩ else a.cell? id := by
  obtain ⟨method, index⟩ := id
  simp only [cell?, allocate, next, size, LocationId.mk.injEq, getElem?_concat]
  by_cases hmethod : method = a.method <;> simp [hmethod]

theorem cell?_link (hparent : parent.method = a.method) (s : Segment) (child id : LocationId) :
    (a.link parent s child).cell? id =
      if id = parent then (a.cell? id).map fun c => { c with fields := c.fields.insert s child }
      else a.cell? id := by
  obtain ⟨method, index⟩ := id
  obtain ⟨_, own⟩ := parent
  subst hparent
  simp only [cell?, link, List.getElem?_modify, LocationId.mk.injEq]
  by_cases hmethod : method = a.method
  · by_cases hindex : index = own
    · simp [hmethod, hindex]
    · simp [hmethod, hindex, Ne.symm hindex]
  · simp [hmethod]

/-! ### First meetings -/

theorem meet_of_known? (h : a.known? site = some id) : a.meet site = (id, a) := by
  rw [meet, h]

theorem meetField_of_get? (h : c.fields.get? s = some child) :
    a.meetField parent c s = (child, a) := by
  rw [meetField, h]

section Meet

variable (hnew : a.known? site = none)

include hnew

theorem meet_fst : (a.meet site).1 = a.next := by
  rw [meet, hnew]

theorem cell?_meet (id : LocationId) :
    (a.meet site).2.cell? id = if id = a.next then some ⟨a.next, [], ∅⟩ else a.cell? id := by
  rw [meet, hnew]
  exact cell?_allocate a none [] id

theorem cell?_meet_of_cell? (h : a.cell? id = some c) : (a.meet site).2.cell? id = some c := by
  rw [cell?_meet hnew, if_neg (ne_next_of_cell? h), h]

theorem of_cell?_meet (h : (a.meet site).2.cell? id = some c) :
    id = a.next ∧ c = ⟨a.next, [], ∅⟩ ∨ a.cell? id = some c := by
  rw [cell?_meet hnew] at h
  split at h
  · next hid => exact .inl ⟨hid, (Option.some.inj h).symm⟩
  · exact .inr h

theorem known?_meet (site' : Site) :
    (a.meet site).2.known? site' = if site' = site then some a.next else a.known? site' := by
  rw [meet, hnew]
  exact OrdMap.get?_insert a.sites site site' a.next

end Meet

section MeetField

variable (hnew : c.fields.get? s = none)

include hnew

theorem meetField_fst : (a.meetField parent c s).1 = a.next := by
  rw [meetField, hnew]

theorem known?_meetField (site : Site) :
    (a.meetField parent c s).2.known? site = a.known? site := by
  rw [meetField, hnew]
  rfl

variable (hparent : a.cell? parent = some c)

include hparent

theorem cell?_meetField (id : LocationId) :
    (a.meetField parent c s).2.cell? id =
      if id = a.next then some ⟨c.root, c.path ++ [s], ∅⟩
      else if id = parent then some { c with fields := c.fields.insert s a.next }
      else a.cell? id := by
  have hmethod : parent.method = (a.allocate (some c.root) (c.path ++ [s])).method :=
    method_of_cell? (a := a) hparent
  have hne : parent ≠ a.next := ne_next_of_cell? hparent
  rw [meetField, hnew]
  show ((a.allocate (some c.root) (c.path ++ [s])).link parent s a.next).cell? id = _
  rw [cell?_link hmethod, cell?_allocate]
  by_cases hid : id = parent
  · subst hid
    simp [hne, hparent]
  · simp [hid]

/-- Every other location was there before, with the same fields but for the new one. -/
theorem of_cell?_meetField (h : (a.meetField parent c s).2.cell? id = some c') :
    id = a.next ∧ c' = ⟨c.root, c.path ++ [s], ∅⟩ ∨
      ∃ d, a.cell? id = some d ∧ d.Keeps c' ∧ ∀ s' child, c'.fields.get? s' = some child →
        d.fields.get? s' = some child ∨ d = c ∧ s' = s ∧ child = a.next := by
  rw [cell?_meetField hnew hparent] at h
  split at h
  · next hid => exact .inl ⟨hid, (Option.some.inj h).symm⟩
  · split at h
    · next hid =>
      cases h
      refine .inr ⟨c, hid ▸ hparent, c.keeps_insert hnew a.next, fun s' child hchild => ?_⟩
      replace hchild : (c.fields.insert s a.next).get? s' = some child := hchild
      rw [OrdMap.get?_insert] at hchild
      split at hchild
      · next heq => exact .inr ⟨rfl, heq, (Option.some.inj hchild).symm⟩
      · exact .inl hchild
    · exact .inr ⟨c', h, .refl c', fun _ _ hchild => .inl hchild⟩

end MeetField

/-! ### What an arena keeps -/

structure Extends (a a' : Arena) : Prop where
  method : a'.method = a.method
  cells : ∀ id c, a.cell? id = some c → ∃ c', a'.cell? id = some c' ∧ c.Keeps c'
  sites : ∀ site id, a.known? site = some id → a'.known? site = some id

namespace Extends

theorem refl (a : Arena) : a.Extends a where
  method := rfl
  cells _ c hc := ⟨c, hc, .refl c⟩
  sites _ _ h := h

theorem trans (h : a.Extends a') (h' : a'.Extends a'') : a.Extends a'' where
  method := h'.method.trans h.method
  cells id c hc := by
    obtain ⟨c', hc', hkeeps⟩ := h.cells id c hc
    obtain ⟨c'', hc'', hkeeps'⟩ := h'.cells id c' hc'
    exact ⟨c'', hc'', hkeeps.trans hkeeps'⟩
  sites site id hid := h'.sites site id (h.sites site id hid)

end Extends

theorem extends_meet (a : Arena) (site : Site) : a.Extends (a.meet site).2 := by
  cases hsite : a.known? site with
  | some id =>
    rw [meet_of_known? hsite]
    exact .refl a
  | none =>
    refine ⟨?_, fun id c hc => ⟨c, cell?_meet_of_cell? hsite hc, .refl c⟩, fun site' id hid => ?_⟩
    · rw [meet, hsite]
      rfl
    · have hne : site' ≠ site := by
        rintro rfl
        rw [hsite] at hid
        cases hid
      rw [known?_meet hsite, if_neg hne, hid]

theorem extends_meetField (hparent : a.cell? parent = some c) (s : Segment) :
    a.Extends (a.meetField parent c s).2 := by
  cases hfield : c.fields.get? s with
  | some id =>
    rw [meetField_of_get? hfield]
    exact .refl a
  | none =>
    refine ⟨?_, fun id d hd => ?_, fun site id hid => ?_⟩
    · rw [meetField, hfield]
      rfl
    · rw [cell?_meetField hfield hparent, if_neg (ne_next_of_cell? hd)]
      by_cases hid : id = parent
      · subst hid
        obtain rfl := Option.some.inj (hparent.symm.trans hd)
        exact ⟨_, if_pos rfl, c.keeps_insert hfield a.next⟩
      · exact ⟨d, (if_neg hid).trans hd, .refl d⟩
    · rw [known?_meetField hfield, hid]

/-! ### Well-formed arenas -/

/-- The locations of sites are the roots, a location with a longer path is a field of the location
one field before it, and only the last field of a path is a wildcard. -/
structure WellFormed (a : Arena) (depth : Nat) : Prop where
  site : ∀ site id, a.known? site = some id → ∃ c, a.cell? id = some c ∧ c.root = id ∧ c.path = []
  apart : ∀ site site' id, a.known? site = some id → a.known? site' = some id → site = site'
  rooted : ∀ id c, a.cell? id = some c → ∃ site, a.known? site = some c.root
  root : ∀ id c, a.cell? id = some c → c.path = [] → c.root = id
  field : ∀ id c s child, a.cell? id = some c → c.fields.get? s = some child →
    ∃ c', a.cell? child = some c' ∧ c'.root = c.root ∧ c'.path = c.path ++ [s]
  parent : ∀ id c path s, a.cell? id = some c → c.path = path ++ [s] →
    ∃ parent c', a.cell? parent = some c' ∧ c'.root = c.root ∧ c'.path = path ∧
      c'.fields.get? s = some id
  bounded : ∀ id c, a.cell? id = some c → c.path.length ≤ depth ∧ .wildcard ∉ c.path.dropLast

theorem wellFormed_new (method : MethodId) (depth : Nat) : (new method).WellFormed depth := by
  have hnone {id : LocationId} {c : Cell} : (new method).cell? id ≠ some c := by
    rw [cell?]
    split <;> exact nofun
  exact ⟨nofun, nofun, fun _ _ h => absurd h hnone, fun _ _ h => absurd h hnone,
    fun _ _ _ _ h => absurd h hnone, fun _ _ _ _ h => absurd h hnone, fun _ _ h => absurd h hnone⟩

/-- A path below which there are more locations has no wildcard. -/
theorem notMem_of_room (h : .wildcard ∉ path.dropLast) (hlast : path.getLast? ≠ some .wildcard) :
    .wildcard ∉ path := by
  cases path using List.reverseRecOn with
  | nil => exact List.not_mem_nil
  | append_singleton path s =>
    rw [List.dropLast_concat] at h
    rw [List.getLast?_concat] at hlast
    simpa [h] using fun heq => hlast (congrArg some heq.symm)

namespace WellFormed

variable (ha : a.WellFormed depth)

include ha

theorem meet (site : Site) : (a.meet site).2.WellFormed depth := by
  cases hnew : a.known? site with
  | some id => rwa [meet_of_known? hnew]
  | none =>
    have hnext : (a.meet site).2.cell? a.next = some ⟨a.next, [], ∅⟩ := by
      rw [cell?_meet hnew, if_pos rfl]
    have hold {id : LocationId} {c : Cell} (h : a.cell? id = some c) :=
      cell?_meet_of_cell? hnew h
    constructor
    case site =>
      intro site' id hid
      rw [known?_meet hnew] at hid
      split at hid
      · cases hid
        exact ⟨_, hnext, rfl, rfl⟩
      · obtain ⟨c, hc, hroot, hpath⟩ := ha.site site' id hid
        exact ⟨c, hold hc, hroot, hpath⟩
    case apart =>
      intro site₁ site₂ id h₁ h₂
      have hfresh (site' : Site) : a.known? site' ≠ some a.next := fun h => by
        obtain ⟨c, hc, -⟩ := ha.site site' _ h
        exact ne_next_of_cell? hc rfl
      rw [known?_meet hnew] at h₁ h₂
      split at h₁ <;> split at h₂
      · next heq₁ heq₂ => exact heq₁.trans heq₂.symm
      · cases h₁
        exact absurd h₂ (hfresh site₂)
      · cases h₂
        exact absurd h₁ (hfresh site₁)
      · exact ha.apart site₁ site₂ id h₁ h₂
    case rooted =>
      intro id c hc
      rcases of_cell?_meet hnew hc with ⟨rfl, rfl⟩ | hc
      · exact ⟨site, by rw [known?_meet hnew, if_pos rfl]⟩
      · exact (ha.rooted id c hc).imp fun site' => (extends_meet a site).sites site' _
    case root =>
      intro id c hc hpath
      rcases of_cell?_meet hnew hc with ⟨rfl, rfl⟩ | hc
      · rfl
      · exact ha.root id c hc hpath
    case field =>
      intro id c s child hc hchild
      rcases of_cell?_meet hnew hc with ⟨rfl, rfl⟩ | hc
      · cases hchild
      · obtain ⟨c', hc', hplace⟩ := ha.field id c s child hc hchild
        exact ⟨c', hold hc', hplace⟩
    case parent =>
      intro id c path s hc hpath
      rcases of_cell?_meet hnew hc with ⟨rfl, rfl⟩ | hc
      · simp at hpath
      · obtain ⟨parent, c', hc', hplace⟩ := ha.parent id c path s hc hpath
        exact ⟨parent, c', hold hc', hplace⟩
    case bounded =>
      intro id c hc
      rcases of_cell?_meet hnew hc with ⟨rfl, rfl⟩ | hc
      · simp
      · exact ha.bounded id c hc

theorem meetField (hparent : a.cell? parent = some c) (hlength : c.path.length < depth)
    (hlast : c.path.getLast? ≠ some .wildcard) (s : Segment) :
    (a.meetField parent c s).2.WellFormed depth := by
  cases hnew : c.fields.get? s with
  | some id => rwa [meetField_of_get? hnew]
  | none =>
    have hcell := cell?_meetField hnew hparent
    have hne : parent ≠ a.next := ne_next_of_cell? hparent
    have hold := (extends_meetField hparent s).cells
    constructor
    case site =>
      intro site id hid
      rw [known?_meetField hnew] at hid
      obtain ⟨d, hd, hroot, hpath⟩ := ha.site site id hid
      obtain ⟨d', hd', hkeeps⟩ := hold id d hd
      exact ⟨d', hd', hkeeps.root.trans hroot, hkeeps.path.trans hpath⟩
    case apart =>
      intro site₁ site₂ id h₁ h₂
      rw [known?_meetField hnew] at h₁ h₂
      exact ha.apart site₁ site₂ id h₁ h₂
    case rooted =>
      intro id d hd
      simp only [known?_meetField hnew]
      rcases of_cell?_meetField hnew hparent hd with ⟨-, rfl⟩ | ⟨d', hd', hkeeps, -⟩
      · exact ha.rooted parent c hparent
      · rw [hkeeps.root]
        exact ha.rooted id d' hd'
    case root =>
      intro id d hd hpath
      rcases of_cell?_meetField hnew hparent hd with ⟨-, rfl⟩ | ⟨d', hd', hkeeps, -⟩
      · simp at hpath
      · exact hkeeps.root.trans (ha.root id d' hd' (hkeeps.path.symm.trans hpath))
    case field =>
      intro id d s' child hd hchild
      rcases of_cell?_meetField hnew hparent hd with ⟨-, rfl⟩ | ⟨d', hd', hkeeps, hfields⟩
      · cases hchild
      · rw [hkeeps.root, hkeeps.path]
        rcases hfields s' child hchild with hchild | ⟨rfl, rfl, rfl⟩
        · obtain ⟨e, he, hroot, hpath⟩ := ha.field id d' s' child hd' hchild
          obtain ⟨e', he', hkeeps'⟩ := hold child e he
          exact ⟨e', he', hkeeps'.root.trans hroot, hkeeps'.path.trans hpath⟩
        · exact ⟨_, (hcell a.next).trans (if_pos rfl), rfl, rfl⟩
    case parent =>
      intro id d path s' hd hpath
      rcases of_cell?_meetField hnew hparent hd with ⟨rfl, rfl⟩ | ⟨d', hd', hkeeps, -⟩
      · obtain ⟨rfl, heq⟩ := List.append_inj' hpath rfl
        cases heq
        refine ⟨parent, _, (hcell parent).trans ((if_neg hne).trans (if_pos rfl)), rfl, rfl, ?_⟩
        exact OrdMap.get?_alter_self ..
      · obtain ⟨own, e, he, hroot, hpath, hfield⟩ :=
          ha.parent id d' path s' hd' (hkeeps.path.symm.trans hpath)
        obtain ⟨e', he', hkeeps'⟩ := hold own e he
        exact ⟨own, e', he', hkeeps'.root.trans (hroot.trans hkeeps.root.symm),
          hkeeps'.path.trans hpath, hkeeps'.fields s' id hfield⟩
    case bounded =>
      intro id d hd
      rcases of_cell?_meetField hnew hparent hd with ⟨-, rfl⟩ | ⟨d', hd', hkeeps, -⟩
      · have hroom : .wildcard ∉ c.path := notMem_of_room (ha.bounded parent c hparent).2 hlast
        simpa [hroom] using Nat.succ_le_of_lt hlength
      · rw [hkeeps.path]
        exact ha.bounded id d' hd'

/-- A location has one number, which is found by following its path from its root. -/
theorem eq_of_path (hc : a.cell? id = some c) (hc' : a.cell? id' = some c')
    (hroot : c.root = c'.root) (hpath : c.path = c'.path) : id = id' := by
  induction hp : c.path using List.reverseRecOn generalizing id id' c c' with
  | nil =>
    have hid : c.root = id := ha.root id c hc hp
    have hid' : c'.root = id' := ha.root id' c' hc' (hpath.symm.trans hp)
    rw [← hid, hroot, hid']
  | append_singleton path s ih =>
    obtain ⟨parent, d, hd, hdroot, hdpath, hfield⟩ := ha.parent id c path s hc hp
    obtain ⟨parent', d', hd', hdroot', hdpath', hfield'⟩ :=
      ha.parent id' c' path s hc' (hpath.symm.trans hp)
    have hparent : parent = parent' :=
      ih hd hd' (hdroot.trans (hroot.trans hdroot'.symm)) (hdpath.trans hdpath'.symm) hdpath
    subst hparent
    obtain rfl := Option.some.inj (hd.symm.trans hd')
    exact Option.some.inj (hfield.symm.trans hfield')

end WellFormed

end Arena

end TaintFlow
