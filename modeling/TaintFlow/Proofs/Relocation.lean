import Mathlib.Data.List.Forall2
import TaintFlow.Proofs.CallSources

/-!
Methods under other ids. The id of a method has no part in its analysis: it is in every location and
call site of the method, but all are of one method, so nothing is told apart or ordered by it. Moving
the locations of a state from one method to another (`State.Moved`) therefore commutes with every
operation on states, and a call of the moved method hands back, shares and observes the same.
-/

namespace TaintFlow

/-! ### Locations -/

def Origin.moved (j : MethodId) (o : Origin) : Origin := { o with method := j }

namespace Location

def moved (j : MethodId) (l : Location) : Location := { l with origin := l.origin.moved j }

/-- Locations of one method keep their order. -/
theorem compare_moved {l l' : Location} (h : l.origin.method = l'.origin.method) (j : MethodId) :
    compare (l.moved j) (l'.moved j) = compare l l' := by
  have hcompare (l l' : Location) : compare l l' =
      ((compare l.origin.method l'.origin.method).then
        (compare l.origin.site l'.origin.site)).then (compare l.path l'.path) := rfl
  rw [hcompare, hcompare, h, LinearOrd.compare_self]
  simp only [moved, Origin.moved, LinearOrd.compare_self]

theorem moved_injective {i j : MethodId} {l l' : Location} (hl : l.origin.method = i)
    (hl' : l'.origin.method = i) (h : l.moved j = l'.moved j) : l = l' :=
  LinearOrd.eq_of_compare <| by
    rw [← compare_moved (hl.trans hl'.symm) j, h, LinearOrd.compare_self]

theorem moved_field (j : MethodId) (l : Location) (s : Segment) (depth : Nat) :
    (l.field s depth).moved j = (l.moved j).field s depth := by
  unfold field moved
  simp only
  split <;> rfl

theorem moved_fieldPath (j : MethodId) (l : Location) (path : Path) (depth : Nat) :
    (l.fieldPath path depth).moved j = (l.moved j).fieldPath path depth := by
  unfold fieldPath
  induction path generalizing l with
  | nil => rfl
  | cons s path ih => rw [List.foldl_cons, ih, moved_field, List.foldl_cons]

end Location

/-! ### Alias sets -/

/-- A set has the locations of another, which are all of the method `i`, in the method `j`. -/
structure AliasSet.Moved (i j : MethodId) (L L' : AliasSet) : Prop where
  own : ∀ l ∈ L, l.origin.method = i
  mem : ∀ l', l' ∈ L' ↔ ∃ l ∈ L, l.moved j = l'

namespace AliasSet

variable {i j : MethodId} {L L' M M' : AliasSet}

theorem Moved.toList (h : Moved i j L L') : OrdSet.toList L' = (OrdSet.toList L).map (·.moved j) :=
  OrdSet.toList_eq_map
    (fun l hl l' hl' => Location.compare_moved ((h.own l hl).trans (h.own l' hl').symm) j) h.mem

theorem Moved.size (h : Moved i j L L') : OrdSet.size L' = OrdSet.size L := by
  have hlength (s : AliasSet) : OrdSet.size s = (OrdSet.toList s).length :=
    (List.length_map _).symm
  rw [hlength, hlength, h.toList, List.length_map]

theorem moved_empty : Moved i j ∅ ∅ where
  own l hl := absurd hl (OrdSet.not_mem_empty l)
  mem l' := ⟨fun h => absurd h (OrdSet.not_mem_empty l'),
    fun ⟨l, hl, _⟩ => absurd hl (OrdSet.not_mem_empty l)⟩

theorem Moved.union (h : Moved i j L L') (h' : Moved i j M M') : Moved i j (L ∪ M) (L' ∪ M') where
  own l hl := (OrdSet.mem_union.1 hl).elim (h.own l) (h'.own l)
  mem l' := by
    simp only [OrdSet.mem_union, h.mem, h'.mem, or_and_right, exists_or]

theorem Moved.insert (h : Moved i j L L') {l : Location} (hl : l.origin.method = i) :
    Moved i j (OrdSet.insert L l) (OrdSet.insert L' (l.moved j)) where
  own k hk := (OrdSet.mem_insert.1 hk).elim (fun heq => heq ▸ hl) (h.own k)
  mem l' := by
    simp only [OrdSet.mem_insert, h.mem, or_and_right, exists_or, exists_eq_left]
    exact or_congr_left eq_comm

theorem moved_single {l : Location} (hl : l.origin.method = i) :
    Moved i j (OrdSet.ofList [l]) (OrdSet.ofList [l.moved j]) := moved_empty.insert hl

theorem Moved.map_field (h : Moved i j L L') (s : Segment) (depth : Nat) :
    Moved i j (OrdSet.map (·.field s depth) L) (OrdSet.map (·.field s depth) L') where
  own l hl := by
    obtain ⟨own, hown, rfl⟩ := OrdSet.mem_map.1 hl
    rw [Location.origin_field]
    exact h.own own hown
  mem l' := by
    simp only [OrdSet.mem_map, h.mem]
    constructor
    · rintro ⟨_, ⟨l, hl, rfl⟩, rfl⟩
      exact ⟨_, ⟨l, hl, rfl⟩, Location.moved_field j l s depth⟩
    · rintro ⟨_, ⟨l, hl, rfl⟩, rfl⟩
      exact ⟨_, ⟨l, hl, rfl⟩, (Location.moved_field j l s depth).symm⟩

theorem Moved.subset_iff (h : Moved i j L L') (h' : Moved i j M M') :
    (∀ l ∈ L', l ∈ M') ↔ ∀ l ∈ L, l ∈ M := by
  simp only [h.mem, h'.mem]
  constructor
  · intro hsub l hl
    obtain ⟨k, hk, heq⟩ := hsub (l.moved j) ⟨l, hl, rfl⟩
    exact Location.moved_injective (h.own l hl) (h'.own k hk) heq.symm ▸ hk
  · rintro hsub _ ⟨l, hl, rfl⟩
    exact ⟨l, hsub l hl, rfl⟩

end AliasSet

/-! ### States -/

/-- A state has what another has, whose locations are all of the method `i`, in the method `j`. -/
structure State.Moved (i j : MethodId) (s t : State) : Prop where
  read : ∀ register, AliasSet.Moved i j (s.read register) (t.read register)
  tree : ∀ site, t.tree? ⟨j, site⟩ = s.tree? ⟨i, site⟩
  own : ∀ o, o.method ≠ i → s.tree? o = none
  own' : ∀ o, o.method ≠ j → t.tree? o = none

namespace State

variable {i j : MethodId} {s s' t t' : State} {L L' : AliasSet} {path : Path} {depth : Nat}
  {value : TaintTree}

theorem moved_empty : Moved i j ∅ ∅ where
  read _ := AliasSet.moved_empty
  tree _ := rfl
  own _ _ := rfl
  own' _ _ := rfl

/-- What is true of the trees of both states, origin by origin, is true under the moved origins. -/
theorem Moved.tree?_moved (h : Moved i j s t) {o : Origin} (ho : o.method = i) :
    t.tree? (o.moved j) = s.tree? o := by
  obtain ⟨method, site⟩ := o
  cases ho
  exact h.tree site

theorem Moved.readAt (h : Moved i j s t) {l : Location} (hl : l.origin.method = i) :
    t.readAt (l.moved j) path depth = s.readAt l path depth := by
  have htree : t.tree? (l.moved j).origin = s.tree? l.origin := h.tree?_moved hl
  rw [State.readAt, State.readAt, htree]
  rfl

theorem Moved.readAll (h : Moved i j s t) (hL : AliasSet.Moved i j L L') :
    t.readAll L' path depth = s.readAll L path depth := by
  rw [State.readAll, State.readAll, hL.toList, List.foldl_map]
  refine List.foldl_ext _ _ _ fun tree l hl => ?_
  rw [h.readAt (hL.own l (OrdSet.mem_toList.1 hl))]

theorem Moved.bind (h : Moved i j s t) (hL : AliasSet.Moved i j L L') (register : String) :
    Moved i j (s.bind register L) (t.bind register L') where
  read r := by
    rw [read_bind, read_bind]
    split
    · exact hL
    · exact h.read r
  tree := h.tree
  own := h.own
  own' := h.own'

theorem Moved.writeAt (h : Moved i j s t) {l : Location} (hl : l.origin.method = i)
    (strong : Bool) :
    Moved i j (s.writeAt l path value strong depth)
      (t.writeAt (l.moved j) path value strong depth) where
  read := h.read
  tree site := by
    have horigin : (⟨j, site⟩ : Origin) = (l.moved j).origin ↔ (⟨i, site⟩ : Origin) = l.origin := by
      obtain ⟨⟨method, site'⟩, path⟩ := l
      cases hl
      simp [Location.moved, Origin.moved]
    have htree : t.tree? (l.moved j).origin = s.tree? l.origin := h.tree?_moved hl
    rw [tree?_writeAt, tree?_writeAt, treeOf, htree, h.tree]
    simp only [horigin]
    rfl
  own o ho := by
    rw [tree?_writeAt, if_neg, h.own o ho]
    rintro rfl
    exact ho hl
  own' o ho := by
    rw [tree?_writeAt, if_neg, h.own' o ho]
    rintro rfl
    exact ho rfl

theorem Moved.writeAll (h : Moved i j s t) (hL : AliasSet.Moved i j L L') (strong : Bool) :
    Moved i j (s.writeAll L path value strong depth) (t.writeAll L' path value strong depth) := by
  rw [State.writeAll, State.writeAll, hL.toList, hL.size, List.foldl_map]
  have hown : ∀ l ∈ OrdSet.toList L, l.origin.method = i := fun l hl =>
    hL.own l (OrdSet.mem_toList.1 hl)
  revert hown
  generalize OrdSet.toList L = ls
  intro hown
  induction ls generalizing s t with
  | nil => exact h
  | cons l ls ih =>
    obtain ⟨hl, hls⟩ := List.forall_mem_cons.1 hown
    exact ih (h.writeAt hl _) hls

theorem Moved.join (h : Moved i j s t) (h' : Moved i j s' t') :
    Moved i j (s.join s' depth) (t.join t' depth) where
  read register := by
    rw [read_join, read_join]
    exact (h.read register).union (h'.read register)
  tree site := by rw [tree?_join, tree?_join, h.tree, h'.tree]
  own o ho := by rw [tree?_join, h.own o ho, h'.own o ho]; rfl
  own' o ho := by rw [tree?_join, h.own' o ho, h'.own' o ho]; rfl

theorem Moved.le (h : Moved i j s t) (h' : Moved i j s' t') :
    t.le t' depth = s.le s' depth := by
  rw [Bool.eq_iff_iff, le_iff, le_iff]
  refine and_congr (forall_congr' fun r => (h.read r).subset_iff (h'.read r)) ⟨?_, ?_⟩
  · intro hle o tree ho
    by_cases hi : o.method = i
    · rw [← h.tree?_moved hi] at ho
      rw [← h'.tree?_moved hi]
      exact hle _ tree ho
    · rw [h.own o hi] at ho
      cases ho
  · intro hle o tree ho
    by_cases hj : o.method = j
    · obtain ⟨method, site⟩ := o
      cases hj
      rw [h.tree] at ho
      rw [h'.tree]
      exact hle _ tree ho
    · rw [h.own' o hj] at ho
      cases ho

end State

/-! ### Calls -/

def Observation.moved (j : MethodId) (o : Observation) : Observation :=
  { o with site := { o.site with method := j } }

structure Call.Moved (i j : MethodId) (c c' : Call) : Prop where
  caller : c'.caller = c.caller
  own : c.site.method = i
  site : c'.site = { c.site with method := j }
  callee : c'.callee = c.callee
  arguments : List.Forall₂ (AliasSet.Moved i j) c.arguments c'.arguments

namespace Call

variable {i j : MethodId} {c c' : Call} {h : Heuristics} {model : Model} {s t : State}

theorem Moved.argument? (hc : Moved i j c c') (root : Root) :
    Option.Rel (AliasSet.Moved i j) (c.argument? root) (c'.argument? root) := by
  have hget {Ls Ls' : List AliasSet} (h : List.Forall₂ (AliasSet.Moved i j) Ls Ls') (k : Nat) :
      Option.Rel (AliasSet.Moved i j) Ls[k]? Ls'[k]? := by
    induction h generalizing k with
    | nil => exact .none
    | cons hL _ ih =>
      cases k with
      | zero => exact .some hL
      | succ k => exact ih k
  cases root with
  | argument index => exact hget hc.arguments index
  | result => exact .none

theorem Moved.step (hc : Moved i j c c') (port : Port) : c'.step port = c.step port := by
  rw [Call.step, Call.step, hc.caller, hc.callee, hc.site]

theorem Moved.generate (hc : Moved i j c c') : c'.generate h = c.generate h := by
  funext o port frames
  simp only [Call.generate, hc.step]

theorem Moved.propagate (hc : Moved i j c c') (hs : State.Moved i j s t) :
    c'.propagate h t = c.propagate h s := by
  funext o p
  have hargument := hc.argument? (p.input.normalize h.maxFieldDepth).root
  simp only [Call.propagate]
  generalize c.argument? (p.input.normalize h.maxFieldDepth).root = L at hargument ⊢
  generalize c'.argument? (p.input.normalize h.maxFieldDepth).root = L' at hargument ⊢
  cases hargument with
  | none => rfl
  | some hL => simp only [hs.readAll hL]

theorem Moved.outputs (hc : Moved i j c c') (hs : State.Moved i j s t) :
    c'.outputs h model t = c.outputs h model s := by
  simp only [Call.outputs, hc.generate, hc.propagate hs]

theorem Moved.shared (hc : Moved i j c c') :
    AliasSet.Moved i j (c.shared h model) (c'.shared h model) where
  own l hl := by
    obtain ⟨p, -, -, L, hL, own, hown, rfl⟩ := mem_shared.1 hl
    obtain ⟨L', -, hmoved⟩ := rel_some_left (hL ▸ hc.argument? p.input.root)
    rw [Location.origin_fieldPath]
    exact hmoved.own own hown
  mem l' := by
    simp only [mem_shared]
    constructor
    · rintro ⟨p, hp, haliasing, L', hL', own', hown', rfl⟩
      obtain ⟨L, hL, hmoved⟩ := rel_some_right (hL' ▸ hc.argument? p.input.root)
      obtain ⟨own, hown, rfl⟩ := (hmoved.mem own').1 hown'
      exact ⟨_, ⟨p, hp, haliasing, L, hL, own, hown, rfl⟩, Location.moved_fieldPath j own _ _⟩
    · rintro ⟨_, ⟨p, hp, haliasing, L, hL, own, hown, rfl⟩, rfl⟩
      obtain ⟨L', hL', hmoved⟩ := rel_some_left (hL ▸ hc.argument? p.input.root)
      exact ⟨p, hp, haliasing, L', hL', _, (hmoved.mem _).2 ⟨own, hown, rfl⟩,
        (Location.moved_fieldPath j own _ _).symm⟩

theorem Moved.writeArgument (hc : Moved i j c c') (hs : State.Moved i j s t) (root : Root)
    (tree : TaintTree) :
    State.Moved i j (c.writeArgument h s root tree) (c'.writeArgument h t root tree) := by
  have hargument := hc.argument? root
  unfold Call.writeArgument
  generalize c.argument? root = L at hargument ⊢
  generalize c'.argument? root = L' at hargument ⊢
  cases hargument with
  | none => exact hs
  | some hL => exact hs.writeAll hL false

theorem Moved.writeArguments (hc : Moved i j c c') (hs : State.Moved i j s t)
    (outputs : List (Root × TaintTree)) :
    State.Moved i j (outputs.foldl (fun s e => c.writeArgument h s e.1 e.2) s)
      (outputs.foldl (fun s e => c'.writeArgument h s e.1 e.2) t) := by
  induction outputs generalizing s t with
  | nil => exact hs
  | cons e outputs ih => exact ih (hc.writeArgument hs e.1 e.2)

theorem Moved.obscured (hc : Moved i j c c') (hs : State.Moved i j s t) :
    c'.obscured h t = c.obscured h s := by
  have hfold {Ls Ls' : List AliasSet} (hLs : List.Forall₂ (AliasSet.Moved i j) Ls Ls')
      (frames : FrameSet) :
      Ls'.foldl (fun fs L => FrameSet.join fs (t.readAll L [] h.maxFieldDepth).collect) frames =
        Ls.foldl (fun fs L => FrameSet.join fs (s.readAll L [] h.maxFieldDepth).collect)
          frames := by
    induction hLs generalizing frames with
    | nil => rfl
    | cons hL _ ih => rw [List.foldl_cons, List.foldl_cons, hs.readAll hL, ih]
  rw [Call.obscured, Call.obscured, hfold hc.arguments]

theorem Moved.bindResult (hc : Moved i j c c') (hs : State.Moved i j s t) (register : String)
    (returned : TaintTree) {L L' : AliasSet} (hL : AliasSet.Moved i j L L') :
    State.Moved i j (c.bindResult h s register returned L)
      (c'.bindResult h t register returned L') := by
  have hfresh : Location.instruction c'.site.method c'.site.position =
      (Location.instruction c.site.method c.site.position).moved j := by
    rw [hc.site]
    rfl
  simp only [Call.bindResult, hfresh]
  exact (hs.writeAt hc.own true).bind (hL.insert hc.own) register

theorem Moved.reaching (hc : Moved i j c c') (hs : State.Moved i j s t) (port : Port) :
    c'.reaching h t port = c.reaching h s port := by
  have hargument := hc.argument? port.root
  unfold Call.reaching
  generalize c.argument? port.root = L at hargument ⊢
  generalize c'.argument? port.root = L' at hargument ⊢
  cases hargument with
  | none => rfl
  | some hL => simp only [Option.map_some, hs.readAll hL]

theorem Moved.observe (hc : Moved i j c c') (hs : State.Moved i j s t) :
    c'.observe h model t = (c.observe h model s).map (·.moved j) := by
  have hport (port : Port) (sinks : FrameSet) :
      c'.observeAt h t port sinks = (c.observeAt h s port sinks).map (·.moved j) := by
    rw [observeAt_eq, observeAt_eq, hc.reaching hs]
    split
    · rfl
    · rw [List.map_map]
      simp only [hc.site, hc.callee, hc.step]
      rfl
  rw [Call.observe, Call.observe, List.map_flatMap]
  simp only [hport]

/-- A call of a moved method leads to the moved state and observations. -/
theorem Moved.run (hc : Moved i j c c') (hs : State.Moved i j s t) (callee : Callee)
    (result : Option String) :
    State.Moved i j (c.run h callee result s).1 (c'.run h callee result t).1 ∧
      (c'.run h callee result t).2 = (c.run h callee result s).2.map (·.moved j) := by
  cases callee with
  | obscure =>
    refine ⟨?_, rfl⟩
    cases result with
    | none => exact hs
    | some register =>
      simp only [Call.run, hc.obscured hs]
      exact hc.bindResult hs register _ AliasSet.moved_empty
  | modeled model =>
    refine ⟨?_, hc.observe hs⟩
    simp only [Call.run, hc.outputs hs]
    have hafter := hc.writeArguments (h := h) hs (c.outputs h model s).entries
    cases result with
    | none => exact hafter
    | some register => exact hc.bindResult hafter register _ hc.shared

end Call

end TaintFlow
