import TaintFlow.Proofs.Sources
import TaintFlow.MethodAnalysis.Walk

/-!
The state at entry. Before declared sources are joined into the parameters every parameter holds its
own frame and nothing else, under an origin of its own (`Walk.tree?_bound`).
-/

namespace TaintFlow

theorem FrameSet.has_singleton {f own : Frame} {info : FrameInfo} :
    (singleton own info).Has f ↔ f = own := by
  unfold Has singleton
  rw [OrdMap.get?_insert]
  by_cases h : f = own <;> simp [h, OrdMap.get?_empty]

@[simp] theorem Path.normalize_nil (depth : Nat) : normalize [] depth = [] := by
  cases depth <;> rfl

/-- A strong write to the root replaces all. -/
theorem TaintTree.write_leaf_strong (t : TaintTree) (fs : FrameSet) (depth : Nat) :
    t.write [] (.leaf fs) true depth = .leaf fs := by
  cases depth <;> rfl

/-- Any other write of frames to the root of frames joins them. -/
theorem TaintTree.write_leaf_weak (fs frames : FrameSet) (depth : Nat) :
    (leaf fs).write [] (.leaf frames) false depth = .leaf (frames.join fs) := by
  cases depth <;> rfl

namespace Walk

def ownTree (index : Nat) : TaintTree := .leaf (.singleton (.ofArgument index []) ∅)

def bindParameter (w : Walk) (s : State) (p : String × Nat) : State :=
  (s.bind p.1 (OrdSet.ofList [.parameter w.method.id p.2])).writeAt (.parameter w.method.id p.2) []
    (ownTree p.2) true w.heuristics.maxFieldDepth

def seed (w : Walk) (s : State) (port : Port) (frames : FrameSet) : State :=
  let depth := w.heuristics.maxFieldDepth
  match port.root with
  | .argument index =>
    if index < w.method.parameters.length then
      s.writeAt (.parameter w.method.id index) (port.path.normalize depth) (.leaf frames) false depth
    else s
  | .result => s

def bound (w : Walk) : State := w.method.parameters.zipIdx.foldl w.bindParameter ∅

theorem entry_eq (w : Walk) :
    w.entry = (w.method.declared.getD ∅).parameterSources.entries.foldl
      (fun s e => w.seed s e.1 e.2) w.bound := rfl

variable {w : Walk} {s : State} {o : Origin} {tree : TaintTree}

theorem tree?_bindParameter (p : String × Nat) :
    (w.bindParameter s p).tree? o =
      if o = (Location.parameter w.method.id p.2).origin then some (ownTree p.2)
      else s.tree? o := by
  rw [bindParameter, State.tree?_writeAt]
  split
  · exact congrArg some (TaintTree.write_leaf_strong ..)
  · rfl

/-- Every parameter holds its own frame, and nothing else is held. -/
theorem tree?_bound : w.bound.tree? o = some tree ↔
    ∃ i < w.method.parameters.length, o = (Location.parameter w.method.id i).origin ∧
      tree = ownTree i := by
  have hindex {p : String × Nat} (hp : p ∈ w.method.parameters.zipIdx) :
      p.2 < w.method.parameters.length := by
    obtain ⟨-, hlt, -⟩ := List.mem_zipIdx hp
    simpa using hlt
  have hown {o : Origin} {tree : TaintTree} (h : w.bound.tree? o = some tree) :
      ∃ i < w.method.parameters.length, o = (Location.parameter w.method.id i).origin ∧
        tree = ownTree i := by
    revert h
    refine List.foldlRecOn (motive := fun s : State => s.tree? o = some tree → _) _ _ nofun
      fun s hs p hp h => ?_
    rw [tree?_bindParameter] at h
    split at h
    · next ho => exact ⟨p.2, hindex hp, ho, (Option.some.inj h).symm⟩
    · exact hs h
  refine ⟨hown, ?_⟩
  rintro ⟨i, hi, rfl, rfl⟩
  have hstep (s : State) (p : String × Nat) :
      (∃ tree, (w.bindParameter s p).tree? (Location.parameter w.method.id i).origin = some tree) ↔
        (∃ tree, s.tree? (Location.parameter w.method.id i).origin = some tree) ∨ p.2 = i := by
    rw [tree?_bindParameter]
    by_cases h : p.2 = i
    · simp [h]
    · simp [h, Location.parameter, Ne.symm h]
  have hsome : ∃ tree, w.bound.tree? (Location.parameter w.method.id i).origin = some tree := by
    refine (foldl_iff (P := fun s : State => ∃ tree,
      s.tree? (Location.parameter w.method.id i).origin = some tree) hstep _ _).2 (.inr ?_)
    exact ⟨(w.method.parameters[i], i), List.mem_zipIdx_iff_getElem?.2 (List.getElem?_eq_getElem hi),
      rfl⟩
  obtain ⟨tree, htree⟩ := hsome
  obtain ⟨j, -, horigin, rfl⟩ := hown htree
  cases horigin
  exact htree

end Walk

/-! ### Nothing but parameters -/

/-- Registers hold locations of parameters only, and only parameters have trees. -/
structure State.OfParameters (method : MethodId) (s : State) : Prop where
  read : ∀ register, ∀ l ∈ s.read register, ∃ i, l.origin = ⟨method, .parameter i⟩
  tree : ∀ o tree, s.tree? o = some tree → ∃ i, o = ⟨method, .parameter i⟩

namespace State.OfParameters

variable {method : MethodId} {s : State} {l : Location}

theorem bind (h : OfParameters method s) (hl : ∃ i, l.origin = ⟨method, .parameter i⟩)
    (register : String) : OfParameters method (s.bind register (OrdSet.ofList [l])) where
  read r a ha := by
    rw [read_bind] at ha
    split at ha
    · obtain rfl := List.mem_singleton.1 (OrdSet.mem_ofList.1 ha)
      exact hl
    · exact h.read r a ha
  tree := h.tree

theorem writeAt (h : OfParameters method s) (hl : ∃ i, l.origin = ⟨method, .parameter i⟩)
    (path : Path) (value : TaintTree) (strong : Bool) (depth : Nat) :
    OfParameters method (s.writeAt l path value strong depth) where
  read := h.read
  tree o tree htree := by
    rw [tree?_writeAt] at htree
    split at htree
    · next ho => exact ho ▸ hl
    · exact h.tree o tree htree

end State.OfParameters

theorem Walk.entry_ofParameters (w : Walk) : w.entry.OfParameters w.method.id := by
  rw [entry_eq]
  refine List.foldlRecOn (motive := State.OfParameters w.method.id) _ _ ?_ fun s hs e _ => ?_
  · refine List.foldlRecOn (motive := State.OfParameters w.method.id) _ _ ⟨?_, nofun⟩
      fun s hs p _ => (hs.bind ⟨p.2, rfl⟩ p.1).writeAt ⟨p.2, rfl⟩ _ _ _ _
    exact fun _ l hl => absurd hl (OrdSet.not_mem_empty l)
  · unfold seed
    simp only
    split
    · next index _ =>
      split
      · exact hs.writeAt ⟨index, rfl⟩ _ _ _ _
      · exact hs
    · exact hs

end TaintFlow
