import TaintFlow.Frame

/-!
Nodes of taint trees. A node carries frames for itself and for every field that it does not list; a
listed field defines its own taint completely. A node is written as the list of its fields, each
with the node below it, ending in the node's own frames, and every operation is a recursion on that
list. `Node.step` is the node at a field whether listed or not, so a join is a join at every field
that one side lists. Fields are listed in ascending order (`Node.Ordered`), which every operation
keeps.
-/

namespace TaintFlow

inductive Node where
  /-- A node without listed fields. -/
  | bare (frames : FrameSet)
  /-- The node `rest` with one more listed field. -/
  | field (name : String) (child rest : Node)
  deriving DecidableEq

namespace Node

/-- The frames of the node itself. -/
def frames : Node → FrameSet
  | bare fs => fs
  | field _ _ rest => rest.frames

/-- The listed fields. -/
def names : Node → List String
  | bare _ => []
  | field name _ rest => name :: rest.names

/-- The node at a listed field. -/
def child? (name : String) : Node → Option Node
  | bare _ => none
  | field n child rest => if name = n then some child else rest.child? name

/-- Takes a field off the list. -/
def erase (name : String) : Node → Node
  | bare fs => bare fs
  | field n child rest => if name = n then rest else field n child (rest.erase name)

/-- Lists a field, in its place, with the node below it. -/
def put (t : Node) (name : String) (child : Node) : Node :=
  match t with
  | bare fs => field name child (bare fs)
  | field n c rest =>
    match compare name n with
    | .lt => field name child (field n c rest)
    | .eq => field name child rest
    | .gt => field n c (rest.put name child)

/-- The node at a field. An unlisted field has the frames of its parent, refined by the field. -/
def step (t : Node) (name : String) (depth : Nat) : Node :=
  (t.child? name).getD (bare (t.frames.below [.field name] depth))

/-- No frames anywhere. -/
def isEmpty : Node → Bool
  | bare fs => OrdMap.isEmpty fs
  | field _ child rest => child.isEmpty && rest.isEmpty

/-- The frames of all nodes below the listed fields. -/
def collectFields : Node → FrameSet
  | bare _ => ∅
  | field _ child rest => (child.frames.join child.collectFields).join rest.collectFields

/-- The frames of all nodes. -/
def collect (t : Node) : FrameSet := t.frames.join t.collectFields

/-- Joins frames into a node and, refined, into all that it lists. -/
def overlay (depth : Nat) : FrameSet → Node → Node
  | fs, bare own => bare (own.join fs)
  | fs, field name child rest =>
    field name (overlay depth (fs.below [.field name] depth) child) (overlay depth fs rest)

/-- The join of two nodes: their frames are joined, and the nodes at every field that either
lists. -/
def join (depth : Nat) : Node → Node → Node
  | bare fs, t => overlay depth fs t
  | field name child rest, t =>
    (join depth rest (t.erase name)).put name (join depth child (t.step name depth))

/-- Whether joining `s` into `t` brings nothing new: `t` has the frames of `s` and lists its fields,
and the same holds at every field that `t` lists. -/
def le (depth : Nat) (s : Node) : Node → Bool
  | bare fs => s.frames.le fs && s.names.isEmpty
  | field name child rest =>
    le depth (s.step name depth) child && le depth (s.erase name) rest

/-- The node at a path, whose unlisted part is refined from the deepest node on it. A wildcard
gathers the frames of everything below its parent. -/
def subtree (depth : Nat) (t : Node) : Path → Node
  | [] => t
  | .wildcard :: _ => bare t.collect
  | .field name :: path =>
    match t.child? name with
    | some child => child.subtree depth path
    | none => bare (t.frames.below (.field name :: path) depth)

/-- Changes the node at a chain of fields, listing the fields on the way. -/
def modifyAt (depth : Nat) (f : Node → Node) (t : Node) : List String → Node
  | [] => f t
  | name :: names => t.put name ((t.step name depth).modifyAt depth f names)

/-- Folds what lies more than `depth` fields below into the nodes at that depth. -/
def limit : Nat → Node → Node
  | _, bare fs => bare fs
  | 0, t => bare t.collect
  | depth + 1, field name child rest => field name (limit depth child) (limit (depth + 1) rest)

/-- What is left of a node after merging crowded fields: the node, the number of its leaves, and
whether anything was merged. -/
structure Collapsed where
  node : Node
  leaves : Nat
  any : Bool

/-- Merges the fields of a node that has more than `limit` leaves into the node. A node without
fields is one leaf. -/
def settle (limit : Nat) (c : Collapsed) : Collapsed :=
  if c.leaves = 0 then { c with leaves := 1 }
  else if c.leaves ≤ limit then c
  else
    let merged := c.node.collectFields.addFeature FrameInfo.viaCollapse
    ⟨bare (c.node.frames.join merged), 1, true⟩

/-- Settles every listed field, bottom-up, and counts their leaves. -/
def collapseFields (limit : Nat) : Node → Collapsed
  | bare fs => ⟨bare fs, 0, false⟩
  | field name child rest =>
    let c := settle limit (child.collapseFields limit)
    let r := rest.collapseFields limit
    ⟨field name c.node r.node, c.leaves + r.leaves, c.any || r.any⟩

/-- Changes the frames of every node. -/
def mapFrames (f : FrameSet → FrameSet) : Node → Node
  | bare fs => bare (f fs)
  | field name child rest => field name (child.mapFrames f) (rest.mapFrames f)

/-- The frames of a node at a path, if there are any. -/
def listed (path : Path) (fs : FrameSet) : List (Path × FrameSet) :=
  if OrdMap.isEmpty fs then [] else [(path, fs)]

/-- The nodes with frames below the listed fields, with their paths, each before its fields. -/
def listFields (path : Path) : Node → List (Path × FrameSet)
  | bare _ => []
  | field name child rest =>
    let here := path ++ [.field name]
    listed here child.frames ++ child.listFields here ++ rest.listFields path

/-! ### Fields in ascending order -/

/-- Every node lists its fields in strictly ascending order. -/
def Ordered : Node → Prop
  | bare _ => True
  | field name child rest =>
    (∀ n ∈ rest.names, compare name n = .lt) ∧ child.Ordered ∧ rest.Ordered

instance decidableOrdered : (t : Node) → Decidable t.Ordered
  | bare _ => .isTrue trivial
  | field _ child rest =>
    have := decidableOrdered child
    have := decidableOrdered rest
    inferInstanceAs (Decidable (_ ∧ _ ∧ _))

theorem mem_names_erase {name n : String} {t : Node} (h : n ∈ (t.erase name).names) :
    n ∈ t.names := by
  induction t with
  | bare fs => exact h
  | field m child rest _ ih =>
    unfold erase at h
    split at h
    · exact List.mem_cons_of_mem m h
    · rcases List.mem_cons.1 h with rfl | h
      · exact List.mem_cons_self
      · exact List.mem_cons_of_mem m (ih h)

theorem mem_names_put {name n : String} {c t : Node} (h : n ∈ (t.put name c).names) :
    n = name ∨ n ∈ t.names := by
  induction t with
  | bare fs => exact .inl (by simpa [put, names] using h)
  | field m child rest _ ih =>
    unfold put at h
    split at h
    · exact List.mem_cons.1 h
    · exact (List.mem_cons.1 h).imp_right (List.mem_cons_of_mem m)
    · rcases List.mem_cons.1 h with rfl | h
      · exact .inr List.mem_cons_self
      · exact (ih h).imp_right (List.mem_cons_of_mem m)

theorem Ordered.erase {t : Node} (h : t.Ordered) (name : String) : (t.erase name).Ordered := by
  induction t with
  | bare fs => exact h
  | field m child rest _ ih =>
    obtain ⟨hlt, hc, hr⟩ := h
    unfold Node.erase
    split
    · exact hr
    · exact ⟨fun n hn => hlt n (mem_names_erase hn), hc, ih hr⟩

theorem Ordered.put {t c : Node} (h : t.Ordered) (hc : c.Ordered) (name : String) :
    (t.put name c).Ordered := by
  induction t with
  | bare fs => exact ⟨by simp [names], hc, h⟩
  | field m child rest _ ih =>
    obtain ⟨hlt, hm, hr⟩ := h
    unfold Node.put
    split
    · rename_i hcmp
      refine ⟨fun n hn => ?_, hc, hlt, hm, hr⟩
      rcases List.mem_cons.1 hn with rfl | hn
      · exact hcmp
      · exact LinearOrd.lt_trans hcmp (hlt n hn)
    · rename_i hcmp
      obtain rfl := LinearOrd.eq_of_compare hcmp
      exact ⟨hlt, hc, hr⟩
    · rename_i hcmp
      refine ⟨fun n hn => ?_, hm, ih hr⟩
      rcases mem_names_put hn with rfl | hn
      · exact LinearOrd.lt_of_gt hcmp
      · exact hlt n hn

theorem Ordered.child? {t c : Node} (h : t.Ordered) {name : String} (hc : t.child? name = some c) :
    c.Ordered := by
  induction t with
  | bare fs => cases hc
  | field m child rest _ ih =>
    unfold Node.child? at hc
    split at hc
    · cases hc
      exact h.2.1
    · exact ih h.2.2 hc

theorem Ordered.step {t : Node} (h : t.Ordered) (name : String) (depth : Nat) :
    (t.step name depth).Ordered := by
  unfold Node.step
  cases hc : t.child? name with
  | none => trivial
  | some c => exact h.child? hc

theorem names_overlay (depth : Nat) (fs : FrameSet) (t : Node) :
    (overlay depth fs t).names = t.names := by
  induction t with
  | bare own => rfl
  | field m child rest _ ih => exact congrArg (m :: ·) ih

theorem Ordered.overlay {t : Node} (h : t.Ordered) (depth : Nat) (fs : FrameSet) :
    (overlay depth fs t).Ordered := by
  induction t generalizing fs with
  | bare own => trivial
  | field m child rest ihc ihr =>
    exact ⟨fun n hn => h.1 n (names_overlay depth fs rest ▸ hn), ihc h.2.1 _, ihr h.2.2 fs⟩

theorem Ordered.join {s t : Node} (hs : s.Ordered) (ht : t.Ordered) (depth : Nat) :
    (join depth s t).Ordered := by
  induction s generalizing t with
  | bare fs => exact ht.overlay depth fs
  | field m child rest ihc ihr =>
    exact (ihr hs.2.2 (ht.erase m)).put (ihc hs.2.1 (ht.step m depth)) m

theorem Ordered.subtree {t : Node} (h : t.Ordered) (depth : Nat) (path : Path) :
    (t.subtree depth path).Ordered := by
  induction path generalizing t with
  | nil => exact h
  | cons s path ih =>
    cases s with
    | wildcard => trivial
    | field name =>
      unfold Node.subtree
      cases hc : t.child? name with
      | none => trivial
      | some c => exact ih (h.child? hc)

theorem Ordered.modifyAt {t : Node} (h : t.Ordered) {depth : Nat} {f : Node → Node}
    (hf : ∀ {u : Node}, u.Ordered → (f u).Ordered) (path : List String) :
    (t.modifyAt depth f path).Ordered := by
  induction path generalizing t with
  | nil => exact hf h
  | cons name path ih => exact h.put (ih (h.step name depth)) name

theorem names_limit (depth : Nat) (t : Node) : ∀ n ∈ (t.limit depth).names, n ∈ t.names := by
  induction t with
  | bare fs => cases depth <;> simp [limit]
  | field m child rest _ ih =>
    cases depth with
    | zero => simp [limit, names]
    | succ depth =>
      intro n hn
      rcases List.mem_cons.1 hn with rfl | hn
      · exact List.mem_cons_self
      · exact List.mem_cons_of_mem m (ih n hn)

theorem Ordered.limit {t : Node} (h : t.Ordered) (depth : Nat) : (t.limit depth).Ordered := by
  induction t generalizing depth with
  | bare fs => cases depth <;> trivial
  | field m child rest ihc ihr =>
    cases depth with
    | zero => trivial
    | succ depth =>
      exact ⟨fun n hn => h.1 n (names_limit _ _ n hn), ihc h.2.1 depth, ihr h.2.2 (depth + 1)⟩

theorem names_collapseFields (n : Nat) (t : Node) : (t.collapseFields n).node.names = t.names := by
  induction t with
  | bare fs => rfl
  | field m child rest _ ih => exact congrArg (m :: ·) ih

theorem Ordered.settle {c : Collapsed} (h : c.node.Ordered) (n : Nat) :
    (settle n c).node.Ordered := by
  unfold Node.settle
  split
  · exact h
  · split
    · exact h
    · trivial

theorem Ordered.collapseFields {t : Node} (h : t.Ordered) (n : Nat) :
    (t.collapseFields n).node.Ordered := by
  induction t with
  | bare fs => trivial
  | field m child rest ihc ihr =>
    exact ⟨fun k hk => h.1 k (names_collapseFields n rest ▸ hk), (ihc h.2.1).settle n, ihr h.2.2⟩

theorem names_mapFrames (f : FrameSet → FrameSet) (t : Node) : (t.mapFrames f).names = t.names := by
  induction t with
  | bare fs => rfl
  | field m child rest _ ih => exact congrArg (m :: ·) ih

theorem Ordered.mapFrames {t : Node} (h : t.Ordered) (f : FrameSet → FrameSet) :
    (t.mapFrames f).Ordered := by
  induction t with
  | bare fs => trivial
  | field m child rest ihc ihr =>
    exact ⟨fun n hn => h.1 n (names_mapFrames f rest ▸ hn), ihc h.2.1, ihr h.2.2⟩

end Node

end TaintFlow
