import TaintFlow.Proofs.Paths
import TaintFlow.Proofs.Sources

/-!
What states are made of. A vocabulary says which fields may be listed and at which levels below a
root, which origins there are, and which frames. Everything that trees and states are built from is
already there, or it is a call's to bring: a field that is listed is named by a path, a list of
fields grows no longer than a path that is written, and frames are joined and refined. Hence each
operation keeps what it is given within a vocabulary whose frames are closed under joins and
refinement (`Vocabulary.Closed`).
-/

namespace TaintFlow

structure Vocabulary where
  /-- The fields that may be named. -/
  name : String → Prop
  /-- The distances from a root at which fields may be listed. -/
  level : Nat → Prop
  origin : Origin → Prop
  /-- The sets of frames that nodes may have. -/
  frames : FrameSet → Prop

namespace Vocabulary

variable (V : Vocabulary)

def path (p : Path) : Prop := ∀ name, .field name ∈ p → V.name name

/-- What operations on trees need of a vocabulary. -/
structure Closed (depth : Nat) : Prop where
  level_of_lt {k : Nat} : k < depth → V.level k
  level_pred {k : Nat} : V.level (k + 1) → V.level k
  empty : V.frames ∅
  join {s t : FrameSet} : V.frames s → V.frames t → V.frames (s.join t)
  below {s : FrameSet} {p : Path} : V.path p → V.frames s → V.frames (s.below p depth)
  addFeature {s : FrameSet} {feature : String} :
    feature = FrameInfo.viaCollapse ∨ feature = FrameInfo.viaObscure → V.frames s →
      V.frames (s.addFeature feature)

variable {V} {p : Path}

/-- The vocabulary that restricts nothing but the sets of frames. -/
def ofFrames (P : FrameSet → Prop) : Vocabulary := ⟨fun _ => True, fun _ => True, fun _ => True, P⟩

theorem path_ofFrames {P : FrameSet → Prop} (p : Path) : (ofFrames P).path p :=
  fun _ _ => trivial

theorem path_nil : V.path [] := fun _ h => by cases h

theorem path_cons {name : String} (hname : V.name name) (hp : V.path p) :
    V.path (.field name :: p) := by
  intro n hn
  rcases List.mem_cons.1 hn with heq | hn
  · cases heq
    exact hname
  · exact hp n hn

theorem path_append {q : Path} (hp : V.path p) (hq : V.path q) : V.path (p ++ q) :=
  fun name hname => (List.mem_append.1 hname).elim (hp name) (hq name)

theorem path_normalize (hp : V.path p) (depth : Nat) : V.path (p.normalize depth) :=
  fun name hname => hp name (Path.mem_of_mem_normalize hname)

end Vocabulary

variable {V : Vocabulary} {depth : Nat}

/-! ### Nodes -/

namespace Node

def Fits (V : Vocabulary) : Nat → Node → Prop
  | _, bare fs => V.frames fs
  | k, field name child rest =>
    (V.name name ∧ V.level k) ∧ child.Fits V (k + 1) ∧ rest.Fits V k

variable {k : Nat} {t u : Node} {fs : FrameSet} {name : String}

theorem Fits.pred (hV : V.Closed depth) (ht : t.Fits V (k + 1)) : t.Fits V k := by
  induction t generalizing k with
  | bare fs => exact ht
  | field n child rest ihChild ihRest =>
    obtain ⟨⟨hname, hlevel⟩, hchild, hrest⟩ := ht
    exact ⟨⟨hname, hV.level_pred hlevel⟩, ihChild hchild, ihRest hrest⟩

theorem Fits.frames (ht : t.Fits V k) : V.frames t.frames := by
  induction t with
  | bare fs => exact ht
  | field n child rest _ ih => exact ih ht.2.2

theorem Fits.collectFields (hV : V.Closed depth) (ht : t.Fits V k) : V.frames t.collectFields := by
  induction t generalizing k with
  | bare fs => exact hV.empty
  | field n child rest ihChild ihRest =>
    exact hV.join (hV.join ht.2.1.frames (ihChild ht.2.1)) (ihRest ht.2.2)

theorem Fits.collect (hV : V.Closed depth) (ht : t.Fits V k) : V.frames t.collect :=
  hV.join ht.frames (ht.collectFields hV)

theorem Fits.child? (ht : t.Fits V k) (hu : t.child? name = some u) : u.Fits V (k + 1) := by
  induction t with
  | bare fs => cases hu
  | field n child rest _ ih =>
    unfold Node.child? at hu
    split at hu
    · cases hu
      exact ht.2.1
    · exact ih ht.2.2 hu

theorem Fits.step (hV : V.Closed depth) (ht : t.Fits V k) (hname : V.name name) :
    (t.step name depth).Fits V (k + 1) := by
  unfold Node.step
  cases hu : t.child? name with
  | none => exact hV.below (Vocabulary.path_cons hname Vocabulary.path_nil) ht.frames
  | some u => exact ht.child? hu

theorem Fits.erase (ht : t.Fits V k) (name : String) : (t.erase name).Fits V k := by
  induction t with
  | bare fs => exact ht
  | field n child rest _ ih =>
    unfold Node.erase
    split
    · exact ht.2.2
    · exact ⟨ht.1, ht.2.1, ih ht.2.2⟩

theorem Fits.put (ht : t.Fits V k) (hname : V.name name) (hlevel : V.level k)
    (hu : u.Fits V (k + 1)) : (t.put name u).Fits V k := by
  induction t with
  | bare fs => exact ⟨⟨hname, hlevel⟩, hu, ht⟩
  | field n child rest _ ih =>
    unfold Node.put
    split
    · exact ⟨⟨hname, hlevel⟩, hu, ht⟩
    · exact ⟨⟨hname, hlevel⟩, hu, ht.2.2⟩
    · exact ⟨ht.1, ht.2.1, ih ht.2.2⟩

theorem Fits.overlay (hV : V.Closed depth) (ht : t.Fits V k) (hfs : V.frames fs) :
    (overlay depth fs t).Fits V k := by
  induction t generalizing fs k with
  | bare own => exact hV.join ht hfs
  | field n child rest ihChild ihRest =>
    obtain ⟨⟨hname, hlevel⟩, hchild, hrest⟩ := ht
    have hbelow := hV.below (Vocabulary.path_cons hname Vocabulary.path_nil) hfs
    exact ⟨⟨hname, hlevel⟩, ihChild hchild hbelow, ihRest hrest hfs⟩

theorem Fits.join (hV : V.Closed depth) (ht : t.Fits V k) (hu : u.Fits V k) :
    (join depth t u).Fits V k := by
  induction t generalizing u k with
  | bare fs => exact hu.overlay hV ht
  | field n child rest ihChild ihRest =>
    obtain ⟨⟨hname, hlevel⟩, hchild, hrest⟩ := ht
    exact (ihRest hrest (hu.erase n)).put hname hlevel (ihChild hchild (hu.step hV hname))

theorem Fits.subtree (hV : V.Closed depth) (ht : t.Fits V k) {p : Path} (hp : V.path p) :
    (t.subtree depth p).Fits V k := by
  induction p generalizing t k with
  | nil => exact ht
  | cons s p ih =>
    cases s with
    | wildcard => exact ht.collect hV
    | field name =>
      unfold Node.subtree
      cases hu : t.child? name with
      | none => exact hV.below hp ht.frames
      | some u =>
      -- what is found below the child fits one level lower, and so it does here
      exact (ih (ht.child? hu) fun n hn => hp n (List.mem_cons_of_mem _ hn)).pred hV

/-- The fields on the way are listed, each one level lower than the one before. -/
theorem Fits.modifyAt (hV : V.Closed depth) {f : Node → Node} {names : List String}
    (hnames : ∀ name ∈ names, V.name name) (hlength : k + names.length ≤ depth)
    (hf : ∀ u : Node, u.Fits V (k + names.length) → (f u).Fits V (k + names.length))
    (ht : t.Fits V k) : (t.modifyAt depth f names).Fits V k := by
  induction names generalizing t k with
  | nil => exact hf t ht
  | cons name names ih =>
    rw [List.length_cons] at hlength hf
    have hname := hnames name List.mem_cons_self
    have hlevel : V.level k := hV.level_of_lt (by omega)
    have hnext : k + 1 + names.length = k + (names.length + 1) := by omega
    refine ht.put hname hlevel (ih (fun n hn => hnames n (List.mem_cons_of_mem name hn)) ?_ ?_
      (ht.step hV hname))
    · omega
    · rw [hnext]
      exact hf

/-- What is cut to a number of levels fits where there are that many levels. -/
theorem Fits.limit (hV : V.Closed depth) (ht : t.Fits V k) {kept top : Nat}
    (h : top + kept ≤ depth) : (t.limit kept).Fits V top := by
  induction t generalizing k kept top with
  | bare fs => cases kept <;> exact ht
  | field n child rest ihChild ihRest =>
    cases kept with
    | zero => exact ht.collect hV
    | succ kept =>
      have hlevel : V.level top := hV.level_of_lt (by omega)
      exact ⟨⟨ht.1.1, hlevel⟩, ihChild ht.2.1 (by omega), ihRest ht.2.2 h⟩

theorem Fits.settle (hV : V.Closed depth) {c : Collapsed} (hc : c.node.Fits V k) (limit : Nat) :
    (settle limit c).node.Fits V k := by
  unfold Node.settle
  split
  · exact hc
  · split
    · exact hc
    · exact hV.join hc.frames (hV.addFeature (.inl rfl) (hc.collectFields hV))

theorem Fits.collapseFields (hV : V.Closed depth) (ht : t.Fits V k) (limit : Nat) :
    (t.collapseFields limit).node.Fits V k := by
  induction t generalizing k with
  | bare fs => exact ht
  | field n child rest ihChild ihRest =>
    exact ⟨ht.1, (ihChild ht.2.1).settle hV limit, ihRest ht.2.2⟩

theorem Fits.mapFrames {g : FrameSet → FrameSet} (hg : ∀ fs, V.frames fs → V.frames (g fs))
    (ht : t.Fits V k) : (t.mapFrames g).Fits V k := by
  induction t generalizing k with
  | bare fs => exact hg fs ht
  | field n child rest ihChild ihRest => exact ⟨ht.1, ihChild ht.2.1, ihRest ht.2.2⟩

end Node

structure Vocabulary.Listed (V : Vocabulary) (p : Path) : Prop where
  path : V.path p
  fields : .wildcard ∉ p
  level : ∀ k < p.length, V.level k

theorem Vocabulary.Listed.concat {p : Path} (hp : V.Listed p) {name : String}
    (hname : V.name name) (hlevel : V.level p.length) : V.Listed (p ++ [.field name]) where
  path := Vocabulary.path_append hp.path (Vocabulary.path_cons hname Vocabulary.path_nil)
  fields := by simp [hp.fields]
  level k hk := by
    rw [List.length_append, List.length_singleton] at hk
    rcases Nat.lt_succ_iff_lt_or_eq.1 hk with hk | rfl
    · exact hp.level k hk
    · exact hlevel

namespace Node

variable {p : Path} {e : Path × FrameSet} {fs : FrameSet} {t : Node}

theorem of_mem_listed_fits (hp : V.Listed p) (hfs : V.frames fs) (he : e ∈ listed p fs) :
    V.Listed e.1 ∧ V.frames e.2 := by
  unfold listed at he
  split at he
  · cases he
  · obtain rfl := List.mem_singleton.1 he
    exact ⟨hp, hfs⟩

theorem Fits.of_mem_listFields (hp : V.Listed p) (ht : t.Fits V p.length)
    (he : e ∈ t.listFields p) : V.Listed e.1 ∧ V.frames e.2 := by
  induction t generalizing p with
  | bare fs => cases he
  | field n child rest ihChild ihRest =>
    obtain ⟨⟨hname, hlevel⟩, hchild, hrest⟩ := ht
    have hhere := hp.concat hname hlevel
    have hlength : (p ++ [Segment.field n]).length = p.length + 1 := by simp
    rcases List.mem_append.1 he with he | he
    · rcases List.mem_append.1 he with he | he
      · exact of_mem_listed_fits hhere hchild.frames he
      · exact ihChild hhere (hlength ▸ hchild) he
    · exact ihRest hp hrest he

end Node

/-! ### Trees -/

namespace TaintTree

def Fits (V : Vocabulary) (t : TaintTree) : Prop := t.root.Fits V 0

variable {t u : TaintTree} {p : Path}

theorem fits_empty (hV : V.Closed depth) : (∅ : TaintTree).Fits V := hV.empty

theorem Fits.join (hV : V.Closed depth) (ht : t.Fits V) (hu : u.Fits V) :
    (t.join u depth).Fits V := Node.Fits.join hV ht hu

theorem Fits.collect (hV : V.Closed depth) (ht : t.Fits V) : V.frames t.collect :=
  Node.Fits.collect hV ht

theorem Fits.subtree (hV : V.Closed depth) (ht : t.Fits V) (hp : V.path p) :
    (t.subtree p depth).Fits V := Node.Fits.subtree hV ht hp

theorem Fits.write (hV : V.Closed depth) (ht : t.Fits V) (hu : u.Fits V) (hp : V.path p)
    (strong : Bool) : (t.write p u strong depth).Fits V := by
  have hlength := Path.length_normalize_le p depth
  have hnames : ∀ name ∈ fieldNames (p.normalize depth), V.name name := fun name hname =>
    Vocabulary.path_normalize hp depth name (Path.mem_fieldNames.1 hname)
  have hnamesLength : (fieldNames (p.normalize depth)).length ≤ (p.normalize depth).length :=
    Path.length_fieldNames_le p depth
  -- what is written is cut first, so that it has room below the end of the path
  have hvalue : (u.root.limit (depth - (p.normalize depth).length)).Fits V
      (0 + (fieldNames (p.normalize depth)).length) :=
    Node.Fits.limit hV hu (by omega)
  unfold TaintTree.write
  simp only
  split
  · exact Node.Fits.modifyAt hV hnames (by omega) (fun _ _ => hvalue) ht
  · exact Node.Fits.modifyAt hV hnames (by omega) (fun _ h => h.join hV hvalue) ht

theorem Fits.collapse (hV : V.Closed depth) (ht : t.Fits V) (limit : Nat) :
    (t.collapse limit).Fits V := (Node.Fits.collapseFields hV ht limit).settle hV limit

/-- What is listed at the nodes is in the vocabulary, and so is where it is listed. -/
theorem Fits.of_mem_nodes (ht : t.Fits V) {e : Path × FrameSet} (he : e ∈ t.nodes) :
    V.Listed e.1 ∧ V.frames e.2 := by
  have hroot : V.Listed [] := ⟨Vocabulary.path_nil, by simp, by simp⟩
  rcases List.mem_append.1 he with he | he
  · exact Node.of_mem_listed_fits hroot (Node.Fits.frames ht) he
  · exact Node.Fits.of_mem_listFields hroot ht he

end TaintTree

/-! ### States -/

structure Location.Fits (V : Vocabulary) (l : Location) : Prop where
  origin : V.origin l.origin
  path : V.path l.path
  level : ∀ k < l.path.length, V.level k

namespace Location

variable {l : Location} {p : Path}

theorem fits_ofFrames {P : FrameSet → Prop} (l : Location) : l.Fits (.ofFrames P) :=
  ⟨trivial, Vocabulary.path_ofFrames _, fun _ _ => trivial⟩

theorem fits_origin {o : Origin} (ho : V.origin o) : Location.Fits V ⟨o, []⟩ :=
  ⟨ho, Vocabulary.path_nil, by simp⟩

theorem Fits.field (hV : V.Closed depth) (hl : l.Fits V) {s : Segment} (hs : V.path [s]) :
    (l.field s depth).Fits V := by
  unfold Location.field
  split
  · next h =>
    refine ⟨hl.origin, Vocabulary.path_append hl.path hs, fun k hk => ?_⟩
    rw [List.length_append, List.length_singleton] at hk
    exact hV.level_of_lt (by omega)
  · exact hl

theorem Fits.fieldPath (hV : V.Closed depth) (hl : l.Fits V) (hp : V.path p) :
    (l.fieldPath p depth).Fits V := by
  induction p generalizing l with
  | nil => exact hl
  | cons s p ih =>
    have hs : V.path [s] := fun name hname =>
      hp name (List.mem_cons.2 (.inl (List.mem_singleton.1 hname)))
    exact ih (hl.field hV hs) fun name hname => hp name (List.mem_cons_of_mem s hname)

end Location

/-- Registers hold locations of a vocabulary, and what is stored is made of it. -/
structure State.Fits (V : Vocabulary) (s : State) : Prop where
  bound : ∀ register, ∀ l ∈ s.read register, l.Fits V
  tree : ∀ o tree, s.tree? o = some tree → V.origin o ∧ tree.Fits V

namespace State

variable {s t : State} {L : AliasSet} {p : Path} {tree : TaintTree}

theorem fits_empty : (∅ : State).Fits V where
  bound _ l hl := absurd hl (OrdSet.not_mem_empty l)
  tree _ _ h := by cases h

theorem Fits.readAt (hV : V.Closed depth) (hs : s.Fits V) {l : Location} (hl : l.Fits V)
    (hp : V.path p) : (s.readAt l p depth).Fits V := by
  unfold State.readAt
  split
  · next tree htree =>
    exact (hs.tree _ tree htree).2.subtree hV (Vocabulary.path_append hl.path hp)
  · exact TaintTree.fits_empty hV

theorem Fits.readAll (hV : V.Closed depth) (hs : s.Fits V) (hL : ∀ l ∈ L, l.Fits V)
    (hp : V.path p) : (s.readAll L p depth).Fits V := by
  refine List.foldlRecOn L.toList _ (TaintTree.fits_empty hV) fun _ ht l hl => ?_
  exact ht.join hV (hs.readAt hV (hL l (OrdSet.mem_toList.1 hl)) hp)

theorem Fits.bind (hs : s.Fits V) (register : String) (hL : ∀ l ∈ L, l.Fits V) :
    (s.bind register L).Fits V where
  bound r l hl := by
    rw [read_bind] at hl
    split at hl
    · exact hL l hl
    · exact hs.bound r l hl
  tree := hs.tree

theorem Fits.writeAt (hV : V.Closed depth) (hs : s.Fits V) {l : Location} (hl : l.Fits V)
    (hp : V.path p) (htree : tree.Fits V) (strong : Bool) :
    (s.writeAt l p tree strong depth).Fits V where
  bound := hs.bound
  tree o u hu := by
    rw [tree?_writeAt] at hu
    split at hu
    · next ho =>
      cases hu
      refine ⟨ho ▸ hl.origin, TaintTree.Fits.write hV ?_ htree
        (Vocabulary.path_append hl.path hp) strong⟩
      unfold treeOf
      cases hown : s.tree? l.origin with
      | none => exact TaintTree.fits_empty hV
      | some own => exact (hs.tree _ own hown).2
    · exact hs.tree o u hu

theorem Fits.writeAll (hV : V.Closed depth) (hs : s.Fits V) (hL : ∀ l ∈ L, l.Fits V)
    (hp : V.path p) (htree : tree.Fits V) (strong : Bool) :
    (s.writeAll L p tree strong depth).Fits V := by
  refine List.foldlRecOn L.toList _ hs fun _ ht l hl => ?_
  exact ht.writeAt hV (hL l (OrdSet.mem_toList.1 hl)) hp htree _

theorem Fits.join (hV : V.Closed depth) (hs : s.Fits V) (ht : t.Fits V) :
    (s.join t depth).Fits V where
  bound r l hl := (mem_read_join.1 hl).elim (hs.bound r l) (ht.bound r l)
  tree o u hu := by
    unfold State.join State.tree? at hu
    rw [OrdMap.get?_union] at hu
    cases hown : s.taint.get? o with
    | none =>
      rw [hown, Option.merge_none_left] at hu
      exact ht.tree o u hu
    | some own =>
      obtain ⟨ho, hfits⟩ := hs.tree o own hown
      cases hother : t.taint.get? o with
      | none =>
        rw [hown, hother] at hu
        cases hu
        exact ⟨ho, hfits⟩
      | some other =>
        rw [hown, hother] at hu
        cases hu
        exact ⟨ho, hfits.join hV (ht.tree o other hother).2⟩

end State

end TaintFlow
