import TaintFlow.Proofs.Companions
import TaintFlow.Proofs.RelatedWalks

/-!
What sources that are declared at parameters do to what a method is found to generate. They are
joined into the parameters at entry, so that a walk with them has all that a walk without them has
and, beside it, only sources that come along with the frame of their parameter (`FrameSet.Seeded`).
At the result all that is generated. At a parameter the kinds that a call brought are told by their
traces, and a join keeps the shortest trace: where a declared source comes along by itself, without
one, a source of the same kind that a call brought there is taken for declared. Elsewhere both walks
generate the same (`MethodAnalysis.generations_seeded`).
-/

namespace TaintFlow

open FrameInfo (Test)

/-! ### Frames -/

def Frame.source (kind : KindId) (transforms : List KindId) : Frame := ⟨.kind kind, transforms, ∅⟩

namespace Propagation

variable {p : Propagation} {limit : Nat} {kind : KindId} {transforms : List KindId} {f : Frame}

theorem copy_source : (p.copy limit (.source kind transforms) ∅).map Prod.fst = some f ↔
    kind ∉ p.sanitizers ∧
      f = .source kind (transforms ++ p.transforms.take (limit - transforms.length)) := by
  by_cases hkind : kind ∈ p.sanitizers
  · have hcontains : p.sanitizers.contains kind = true := hkind
    simp [copy, Frame.source, Frame.kind?, hcontains, hkind]
  · have hcontains : p.sanitizers.contains kind = false := Bool.eq_false_iff.2 hkind
    simp [copy, Frame.source, Frame.kind?, Frame.isArgument, Frame.withTransforms, hcontains, hkind,
      eq_comm]

/-- Frames of parameters are copied by every propagation. -/
theorem exists_copy {own : Frame} (hown : own.isArgument = true) :
    ∃ f, (p.copy limit own ∅).map Prod.fst = some f := by
  rw [Frame.isArgument, Option.isNone_iff_eq_none] at hown
  simp [copy, hown]

end Propagation

/-! ### Frame sets -/

namespace FrameInfo.Test

def OfTrace (q : Test) : Prop := ∀ i j : FrameInfo, i.trace = j.trace → (q.passes i ↔ q.passes j)

theorem anything_ofTrace : anything.OfTrace := fun _ _ _ => Iff.rfl

theorem notAfter_ofTrace (trace : Trace) : (notAfter trace).OfTrace := fun i j h => by
  show Trace.before trace i.trace = false ↔ Trace.before trace j.trace = false
  rw [h]

end FrameInfo.Test

namespace FrameSet

variable {D : Nat → KindId → Prop} {s s' t t' : FrameSet} {f : Frame} {q : Test} {path : Path}
  {depth limit : Nat} {feature : String} {p : Propagation}

/-- A source that comes along with the frame of a parameter, where `D` says what is declared at the
parameters. -/
def Supplies (D : Nat → KindId → Prop) (s : FrameSet) (f : Frame) : Prop :=
  ∃ index kind transforms, D index kind ∧ s.HasOpen index kind transforms ∧
    f = .source kind transforms

theorem supplies_join : (s.join t).Supplies D f ↔ s.Supplies D f ∨ t.Supplies D f := by
  simp only [Supplies, hasOpen_join]
  constructor
  · rintro ⟨index, kind, transforms, hD, hopen | hopen, rfl⟩
    · exact .inl ⟨index, kind, transforms, hD, hopen, rfl⟩
    · exact .inr ⟨index, kind, transforms, hD, hopen, rfl⟩
  · rintro (⟨index, kind, transforms, hD, hopen, rfl⟩ | ⟨index, kind, transforms, hD, hopen, rfl⟩)
    · exact ⟨index, kind, transforms, hD, .inl hopen, rfl⟩
    · exact ⟨index, kind, transforms, hD, .inr hopen, rfl⟩

theorem supplies_below : (s.below path depth).Supplies D f ↔ s.Supplies D f := by
  simp only [Supplies, HasOpen, exists_has_below fun _ => Frame.isOpen_below]

theorem supplies_addFeature : (s.addFeature feature).Supplies D f ↔ s.Supplies D f := by
  simp only [Supplies, HasOpen, has_addFeature]

/-- What is copied of a source that comes along comes along with what is copied of the parameter. -/
theorem Supplies.copy {own : Frame} (h : s.Supplies D own)
    (hcopy : (p.copy limit own ∅).map Prod.fst = some f) :
    (s.mapFrames (p.copy limit)).Supplies D f := by
  obtain ⟨index, kind, transforms, hD, ⟨g, hg, hopen⟩, rfl⟩ := h
  obtain ⟨hkind, rfl⟩ := Propagation.copy_source.1 hcopy
  obtain ⟨g', hg'⟩ : ∃ f, (p.copy limit g ∅).map Prod.fst = some f :=
    Propagation.exists_copy hopen.isArgument
  have htransforms := hopen.2.1
  rw [← htransforms] at hopen ⊢
  exact ⟨index, kind, _, hD, ⟨g', has_copies.2 ⟨g, hg, hg'⟩,
    (Propagation.copy_isOpen hg').2 ⟨hkind, hopen, rfl⟩⟩, rfl⟩

theorem passes_addFeature (hq : q.OfTrace) :
    (s.addFeature feature).Passes q f ↔ s.Passes q f := by
  unfold Passes addFeature
  rw [OrdMap.get?_mapValues]
  cases s.get? f with
  | none => simp
  | some info =>
    have htrace := hq { info with features := info.features.insert feature } info rfl
    simpa using htrace

theorem passes_copies (hq : q.OfTrace) : (s.mapFrames (p.copy limit)).Passes q f ↔
    ∃ own, s.Passes q own ∧ (p.copy limit own ∅).map Prod.fst = some f := by
  have hcopy {own : Frame} {info info' : FrameInfo} (h : p.copy limit own info = some (f, info')) :
      info'.trace = info.trace := by
    unfold Propagation.copy at h
    simp only at h
    split at h
    · cases h
    · cases h
      rfl
  rw [passes_mapFrames]
  constructor
  · rintro ⟨own, info, info', hinfo, heq, hpasses⟩
    refine ⟨own, ⟨info, hinfo, (hq _ _ (hcopy heq)).1 hpasses⟩, ?_⟩
    rw [Propagation.copy_fst own ∅ info, heq]
    rfl
  · rintro ⟨own, ⟨info, hinfo, hpasses⟩, hfst⟩
    rw [Propagation.copy_fst own ∅ info] at hfst
    obtain ⟨⟨f', info'⟩, heq, rfl⟩ := Option.map_eq_some_iff.1 hfst
    exact ⟨own, info, info', hinfo, heq, (hq _ _ (hcopy heq)).2 hpasses⟩

/-- The second set has all that the first one has, with the same traces, and beyond that only
sources that come along with the frame of a parameter. -/
structure Seeded (D : Nat → KindId → Prop) (s t : FrameSet) : Prop where
  kept (q : Test) (hq : q.OfTrace) (f : Frame) : s.Passes q f → t.Passes q f
  brought (q : Test) (hq : q.OfTrace) (f : Frame) : t.Passes q f → s.Passes q f ∨ s.Supplies D f

theorem Seeded.isEmpty (h : s.Seeded D t) : OrdMap.isEmpty s = OrdMap.isEmpty t := by
  have hempty {s : FrameSet} : OrdMap.isEmpty s = true ↔ ∀ f, ¬ s.Passes .anything f := by
    simp only [passes_anything, Has, not_exists, OrdMap.isEmpty_iff,
      Option.eq_none_iff_forall_ne_some, ne_eq]
  rw [Bool.eq_iff_iff, hempty, hempty]
  refine ⟨fun hs f hf => ?_, fun ht f hf => ht f (h.kept _ Test.anything_ofTrace f hf)⟩
  rcases h.brought _ Test.anything_ofTrace f hf with hf | ⟨_, _, _, -, ⟨g, hg, -⟩, -⟩
  · exact hs f hf
  · exact hs g (passes_anything.2 hg)

theorem seeded_closed (D : Nat → KindId → Prop) : ClosedRel (Seeded D) where
  refl s := ⟨fun _ _ _ => id, fun _ _ _ => .inl⟩
  isEmpty h := h.isEmpty
  join h h' := by
    refine ⟨fun q hq f hf => ?_, fun q hq f hf => ?_⟩
    · exact passes_join.2 ((passes_join.1 hf).imp (h.kept q hq f) (h'.kept q hq f))
    · rw [passes_join, supplies_join]
      rcases passes_join.1 hf with hf | hf
      · exact (h.brought q hq f hf).imp .inl .inl
      · exact (h'.brought q hq f hf).imp .inr .inr
  below path depth h := by
    refine ⟨fun q hq f hf => ?_, fun q hq f hf => ?_⟩
    · obtain ⟨own, hown, rfl⟩ := passes_below.1 hf
      exact passes_below.2 ⟨own, h.kept q hq own hown, rfl⟩
    · obtain ⟨own, hown, rfl⟩ := passes_below.1 hf
      rw [supplies_below]
      rcases h.brought q hq own hown with hown | ⟨index, kind, transforms, hD, hopen, rfl⟩
      · exact .inl (passes_below.2 ⟨own, hown, rfl⟩)
      · exact .inr ⟨index, kind, transforms, hD, hopen, rfl⟩
  addFeature feature h := by
    refine ⟨fun q hq f hf => ?_, fun q hq f hf => ?_⟩
    · exact (passes_addFeature hq).2 (h.kept q hq f ((passes_addFeature hq).1 hf))
    · rw [passes_addFeature hq, supplies_addFeature]
      exact h.brought q hq f ((passes_addFeature hq).1 hf)
  copies p limit h := by
    refine ⟨fun q hq f hf => ?_, fun q hq f hf => ?_⟩
    · obtain ⟨own, hown, hcopy⟩ := (passes_copies hq).1 hf
      exact (passes_copies hq).2 ⟨own, h.kept q hq own hown, hcopy⟩
    · obtain ⟨own, hown, hcopy⟩ := (passes_copies hq).1 hf
      rcases h.brought q hq own hown with hown | hown
      · exact .inl ((passes_copies hq).2 ⟨own, hown, hcopy⟩)
      · exact .inr (hown.copy hcopy)

/-- Sources that are declared at a parameter come along where its own frame is. -/
theorem Seeded.add (h : s.Seeded D t) {index : Nat} (hown : s.Has (.ofArgument index []))
    {frames : FrameSet} (hframes : ∀ f, frames.Has f → ∃ kind, f = .ofKind kind ∧ D index kind) :
    s.Seeded D (frames.join t) where
  kept q hq f hf := passes_join.2 (.inr (h.kept q hq f hf))
  brought q hq f hf := by
    rcases passes_join.1 hf with hf | hf
    · obtain ⟨kind, rfl, hD⟩ := hframes f hf.has
      have hopen : (Frame.ofArgument index []).IsOpen index kind [] :=
        ⟨⟨[], rfl⟩, rfl, OrdSet.not_mem_empty kind⟩
      exact .inr ⟨index, kind, [], hD, ⟨_, hown, hopen⟩, rfl⟩
    · exact h.brought q hq f hf

end FrameSet

/-! ### The entry of a method -/

def PortFrames.AtParameters (sources : PortFrames) : Prop :=
  ∀ e ∈ sources.entries, e.1.path = [] ∧ ∀ f ∈ OrdMap.keys e.2, f.kind?.map .ofKind = some f

instance (sources : PortFrames) : Decidable sources.AtParameters :=
  inferInstanceAs (Decidable (∀ _ ∈ _, _ ∧ _))

namespace Walk

variable (w : Walk)

def declaredSources : PortFrames := (w.method.declared.getD ∅).parameterSources

def Declares (index : Nat) (kind : KindId) : Prop :=
  FrameSet.Has (w.declaredSources.getD (.argument index) ∅) (.ofKind kind)

def unseeded : Walk :=
  { w with
    method := { w.method with
      declared := w.method.declared.map fun model => { model with parameterSources := ∅ } } }

variable {w}

theorem entry_unseeded : w.unseeded.entry = w.bound := by
  have hnone : w.unseeded.declaredSources = ∅ := by
    unfold declaredSources unseeded
    cases w.method.declared <;> rfl
  rw [entry_eq]
  exact congrArg (fun sources : PortFrames =>
    sources.entries.foldl (fun s e => w.unseeded.seed s e.1 e.2) w.unseeded.bound) hnone

/-- Sources that are declared for a whole parameter are joined into its tree, which has its own frame
in both walks. -/
theorem related_bound_writeAt {s : State}
    (hs : State.Related (FrameSet.Seeded w.Declares) w.bound s) {index : Nat}
    (hindex : index < w.method.parameters.length) {frames : FrameSet}
    (hframes : ∀ f, frames.Has f → ∃ kind, f = .ofKind kind ∧ w.Declares index kind) :
    State.Related (FrameSet.Seeded w.Declares) w.bound
      (s.writeAt (.parameter w.method.id index) [] (.leaf frames) false
        w.heuristics.maxFieldDepth) where
  read := hs.read
  tree o := by
    rw [State.tree?_writeAt]
    split
    case isFalse => exact hs.tree o
    case isTrue horigin =>
      have hown : w.bound.tree? o = some (ownTree index) :=
        tree?_bound.2 ⟨index, hindex, horigin, rfl⟩
      have hrel : TaintTree.Related (FrameSet.Seeded w.Declares) (ownTree index) (s.treeOf o) := by
        have hrel := hs.treeOf (FrameSet.seeded_closed w.Declares) o
        rwa [State.treeOf, hown] at hrel
      rw [hown, ← horigin]
      refine .some ?_
      generalize s.treeOf o = tree at hrel ⊢
      rcases tree with ⟨root, _⟩
      cases hrel with
      | bare hfs =>
        show TaintTree.Related _ (ownTree index) ((TaintTree.leaf _).write [] (.leaf frames) false _)
        rw [TaintTree.write_leaf_weak]
        exact .bare (hfs.add (FrameSet.has_singleton.2 rfl) hframes)

/-- Declared sources come along with the frames of their parameters when the method is entered. -/
theorem entry_seeded (hsources : w.declaredSources.AtParameters) :
    State.Related (FrameSet.Seeded w.Declares) w.unseeded.entry w.entry := by
  rw [entry_unseeded, entry_eq]
  refine List.foldlRecOn (motive := State.Related _ w.bound) _ _
    (.refl (FrameSet.seeded_closed w.Declares) w.bound) fun s hs e he => ?_
  obtain ⟨hpath, hkinds⟩ := hsources e he
  unfold seed
  simp only
  split
  case h_2 => exact hs
  case h_1 index hroot =>
    split
    case isFalse => exact hs
    case isTrue hindex =>
      have hport : e.1 = .argument index := by
        rcases e with ⟨⟨root, path⟩, frames⟩
        obtain rfl : path = [] := hpath
        exact congrArg (Port.mk · []) hroot
      rw [hpath, Path.normalize_nil]
      refine related_bound_writeAt hs hindex fun f hf => ?_
      obtain ⟨kind, -, rfl⟩ := Option.map_eq_some_iff.1 (hkinds f (OrdMap.mem_keys.2 hf))
      have hget : w.declaredSources.get? e.1 = some e.2 := OrdMap.get?_eq_some_iff.2 he
      refine ⟨kind, rfl, ?_⟩
      rw [Declares, ← hport, OrdMap.getD, hget]
      exact hf

/-- The walks differ at the entry of the method only. -/
theorem lockstep_unseeded {r : FrameSet → FrameSet → Prop} (hr : FrameSet.ClosedRel r) (w : Walk) :
    Lockstep w.unseeded w (State.Related r) :=
  let h := lockstep_related hr w
  ⟨h.depth, h.passes, h.apply, h.join, h.settled_left, h.settled_right⟩

/-- At a chain of fields the same is handed back with and without declared sources, but for sources
that come along with the frame of a parameter. -/
theorem treeAt_seeded (hsources : w.declaredSources.AtParameters) (body : Body) (root : Root)
    (names : List String) :
    let t := w.unseeded.treeAt (w.unseeded.gather body) root
    let t' := w.treeAt (w.gather body) root
    (t.root.Reaches names ↔ t'.root.Reaches names) ∧
      FrameSet.Seeded w.Declares (t.root.cover w.heuristics.maxFieldDepth names)
        (t'.root.cover w.heuristics.maxFieldDepth names) := by
  have hr := FrameSet.seeded_closed w.Declares
  have hes := (lockstep_unseeded hr w).events_matched (entry_seeded hsources) body
  have hforth := treeAt_forth hr (v := w.unseeded) (w := w) rfl rfl hes
  have hback := treeAt_back hr (v := w.unseeded) (w := w) rfl rfl hes
  have hcover {t t' : TaintTree} (h : TaintTree.Related (FrameSet.Seeded w.Declares) t t') :
      FrameSet.Seeded w.Declares (t.root.cover w.heuristics.maxFieldDepth names)
        (t'.root.cover w.heuristics.maxFieldDepth names) := Node.Related.cover hr h names
  let reaches : TaintTree.Test w.heuristics.maxFieldDepth := .reaches _ names
  let passes (q : Test) (f : Frame) : TaintTree.Test w.heuristics.maxFieldDepth :=
    .atChain _ names (FrameSet.Passes · q f) fun _ _ => FrameSet.passes_join
  let orSupplies (q : Test) (f : Frame) : TaintTree.Test w.heuristics.maxFieldDepth :=
    .atChain _ names (fun s => s.Passes q f ∨ s.Supplies w.Declares f) fun s t => by
      rw [FrameSet.passes_join, FrameSet.supplies_join, or_or_or_comm]
  refine ⟨⟨?_, ?_⟩, fun q hq f => ?_, fun q hq f => ?_⟩
  · exact hforth reaches reaches (fun _ _ h => h.reaches.1) root
  · exact hback reaches reaches (fun _ _ h => h.reaches.2) root
  · exact hforth (passes q f) (passes q f) (fun _ _ h => (hcover h).kept q hq f) root
  · exact hback (orSupplies q f) (passes q f) (fun _ _ h => (hcover h).brought q hq f) root

/-- The same nodes are handed back with and without declared sources. -/
theorem nodes_seeded (hsources : w.declaredSources.AtParameters) (body : Body) (root : Root)
    (path : Path) :
    let t := w.unseeded.treeAt (w.unseeded.gather body) root
    let t' := w.treeAt (w.gather body) root
    (∀ fs, (path, fs) ∈ t.nodes → ∃ fs', (path, fs') ∈ t'.nodes ∧ fs.Seeded w.Declares fs') ∧
      ∀ fs', (path, fs') ∈ t'.nodes → ∃ fs, (path, fs) ∈ t.nodes ∧ fs.Seeded w.Declares fs' := by
  simp only [TaintTree.mem_nodes w.heuristics.maxFieldDepth]
  constructor
  · rintro _ ⟨hnonempty, names, hpath, hreaches, rfl⟩
    obtain ⟨hreaches', hseeded⟩ := treeAt_seeded hsources body root names
    exact ⟨_, ⟨hseeded.isEmpty ▸ hnonempty, names, hpath, hreaches'.1 hreaches, rfl⟩, hseeded⟩
  · rintro _ ⟨hnonempty, names, hpath, hreaches, rfl⟩
    obtain ⟨hreaches', hseeded⟩ := treeAt_seeded hsources body root names
    exact ⟨_, ⟨hseeded.isEmpty ▸ hnonempty, names, hpath, hreaches'.2 hreaches, rfl⟩, hseeded⟩

end Walk

/-! ### Generations -/

namespace MethodAnalysis

variable {w : Walk} {g : Walk.Gathered} {port : Port} {f : Frame}

/-- At a parameter all that its tree holds at exit is handed back, but what it holds at entry. -/
theorem mem_handedBack_argument {index : Nat} {path : Path} {info : FrameInfo} :
    (⟨.argument index, path⟩, f, info) ∈ handedBack w g ↔
      index < w.method.parameters.length ∧
        (if f.isArgument then !isInitial ⟨.argument index, path⟩ f
          else !info.trace.isEmpty) = true ∧
        ∃ fs, (path, fs) ∈ (w.treeAt g (.argument index)).nodes ∧
          (f, info) ∈ OrdMap.entries fs := by
  rw [handedBack, List.mem_append, or_iff_right fun h => by cases (mem_framesBelow.1 h).1]
  cases hexit : g.exit with
  | none => simp [Walk.treeAt, hexit, show (State.treeOf ∅ _).nodes = [] from rfl]
  | some exit =>
    simp only [Option.map_some, Option.getD_some, heldAtExit, List.mem_flatMap, List.mem_range,
      List.mem_filter, mem_framesBelow, Walk.treeAt, hexit]
    constructor
    · rintro ⟨i, hi, ⟨hroot, hnode⟩, hkept⟩
      cases hroot
      exact ⟨hi, hkept, hnode⟩
    · rintro ⟨hi, hkept, hnode⟩
      exact ⟨index, hi, ⟨rfl, hnode⟩, hkept⟩

/-- A kind is generated where it is handed back, and at a parameter only with a trace. -/
theorem has_generations_iff : FrameSet.Has ((infer w g).generations.getD port ∅) f ↔
    f.isArgument = false ∧ ∃ fs, (port.path, fs) ∈ (w.treeAt g port.root).nodes ∧ fs.Has f ∧
      ∀ index, port.root = .argument index →
        index < w.method.parameters.length ∧ ¬ fs.Passes (.notAfter []) f := by
  rw [has_generations]
  refine and_congr_right fun hf => ?_
  obtain ⟨root, path⟩ := port
  cases root with
  | result =>
    simp only [mem_handedBack_result, FrameSet.has_iff_mem, Walk.treeAt, reduceCtorEq,
      false_implies, implies_true, and_true]
    exact exists_comm.trans (exists_congr fun fs => exists_and_left)
  | argument index =>
    simp only [mem_handedBack_argument, hf, Bool.false_eq_true, if_false, Root.argument.injEq,
      forall_eq']
    have htrace {fs : FrameSet} {info : FrameInfo} (hinfo : fs.get? f = some info) :
        (!info.trace.isEmpty) = true ↔ ¬ fs.Passes (.notAfter []) f := by
      rw [FrameSet.passes_iff_of_get? hinfo, Test.passes_notAfter_nil]
      simp
    constructor
    · rintro ⟨info, hi, hkept, fs, hnode, hmem⟩
      have hinfo : fs.get? f = some info := OrdMap.get?_eq_some_iff.2 hmem
      exact ⟨fs, hnode, ⟨info, hinfo⟩, hi, (htrace hinfo).1 hkept⟩
    · rintro ⟨fs, hnode, ⟨info, hinfo⟩, hi, hkept⟩
      exact ⟨info, hi, (htrace hinfo).2 hkept, fs, hnode, OrdMap.get?_eq_some_iff.1 hinfo⟩

/-- A declared source comes to a port by itself: without the declared sources the port holds, when
the method is left, a frame of a parameter that the source goes along with. -/
def SuppliedAt (w : Walk) (body : Body) (port : Port) (f : Frame) : Prop :=
  ∃ fs, (port.path, fs) ∈ (w.unseeded.treeAt (w.unseeded.gather body) port.root).nodes ∧
    fs.Supplies w.Declares f

/-- A source that comes to a parameter by itself is declared there, or the parameter where it is
declared is propagated there without removing it. -/
theorem SuppliedAt.propagated {body : Body} (hbody : w.method.body = some body) {index : Nat}
    {path : Path} (hindex : index < w.method.parameters.length)
    (h : SuppliedAt w body ⟨.argument index, path⟩ f) :
    (∃ kind, w.Declares index kind ∧ f = .ofKind kind) ∨
      ∃ p ∈ (run w.unseeded).model.propagations, ∃ i kind,
        p.input.root = .argument i ∧ p.output = ⟨.argument index, path⟩ ∧ w.Declares i kind ∧
          kind ∉ p.sanitizers ∧ f = .source kind p.transforms := by
  obtain ⟨fs, hnode, i, kind, transforms, hdeclares, ⟨g, ⟨info, hinfo⟩, hopen⟩, rfl⟩ := h
  obtain ⟨⟨input, hlabel⟩, rfl, hkind⟩ := id hopen
  by_cases hinitial : isInitial ⟨.argument index, path⟩ g = true
  · obtain rfl : g = Frame.ofArgument index path := by simpa [isInitial] using hinitial
    cases hlabel
    exact .inl ⟨kind, hdeclares, rfl⟩
  · let route : Route := ⟨i, ⟨.argument index, path⟩, g.transforms, g.sanitizers⟩
    have hframe : route.frame input = g := by
      unfold Route.frame
      rw [← hlabel]
    have hhanded : (route.output, route.frame input, info) ∈
        handedBack w.unseeded (w.unseeded.gather body) := by
      rw [hframe]
      refine mem_handedBack_argument.2 ⟨hindex, ?_, fs, hnode, OrdMap.get?_eq_some_iff.1 hinfo⟩
      simp [hopen.isArgument, hinitial]
    obtain ⟨inputs, -, -, p, hp, hinput, houtput, htransforms, hsanitizers⟩ :=
      exists_propagation hhanded
    rw [run_of_body (w := w.unseeded) hbody]
    exact .inr ⟨p, hp, i, kind, congrArg Port.root hinput, houtput, hdeclares, hsanitizers ▸ hkind,
      htransforms ▸ rfl⟩

/-- Declared sources suppress no generation but at a parameter to which the same source comes by
itself, and bring none but where it does. -/
theorem generations_seeded {body : Body} (hbody : w.method.body = some body)
    (hsources : w.declaredSources.AtParameters) (port : Port) (f : Frame) :
    (FrameSet.Has ((run w.unseeded).model.generations.getD port ∅) f →
      FrameSet.Has ((run w).model.generations.getD port ∅) f ∨
        port.root ≠ .result ∧ SuppliedAt w body port f) ∧
    (FrameSet.Has ((run w).model.generations.getD port ∅) f →
      FrameSet.Has ((run w.unseeded).model.generations.getD port ∅) f ∨
        SuppliedAt w body port f) := by
  have huntraced := Test.notAfter_ofTrace []
  obtain ⟨hforth, hback⟩ := Walk.nodes_seeded hsources body port.root port.path
  rw [run_of_body hbody, run_of_body (w := w.unseeded) hbody, has_generations_iff,
    has_generations_iff]
  constructor
  · rintro ⟨hf, fs, hnode, hhas, hkept⟩
    obtain ⟨fs', hnode', hseeded⟩ := hforth fs hnode
    have hpasses := hseeded.kept _ Test.anything_ofTrace f (FrameSet.passes_anything.2 hhas)
    by_cases hsupplied : port.root ≠ .result ∧ SuppliedAt w body port f
    · exact .inr hsupplied
    · refine .inl ⟨hf, fs', hnode', hpasses.has, fun index hroot => ⟨(hkept index hroot).1, ?_⟩⟩
      -- a trace is lost only to a source that comes along without one
      intro htrace
      rcases hseeded.brought _ huntraced f htrace with htrace | hsupplies
      · exact (hkept index hroot).2 htrace
      · exact hsupplied ⟨by simp [hroot], fs, hnode, hsupplies⟩
  · rintro ⟨hf, fs', hnode', hhas, hkept⟩
    obtain ⟨fs, hnode, hseeded⟩ := hback fs' hnode'
    rcases hseeded.brought _ Test.anything_ofTrace f (FrameSet.passes_anything.2 hhas) with
      hpasses | hsupplies
    · refine .inl ⟨hf, fs, hnode, hpasses.has, fun index hroot => ⟨(hkept index hroot).1, ?_⟩⟩
      exact fun htrace => (hkept index hroot).2 (hseeded.kept _ huntraced f htrace)
    · exact .inr ⟨fs, hnode, hsupplies⟩

def filling : Body := .run ⟨0, none⟩ (.call "fill" ["x"] none) .done

/-- A source is declared at the parameter of the method, and the callee brings the same source. -/
def fillingSeeded : Walk where
  method :=
    ⟨⟨0⟩, "seeded", ["x"], some filling,
      some ((∅ : Model).addParameterSource (.argument 0) (.ofKind ⟨0⟩) ∅)⟩
  heuristics := {}
  summaries name :=
    if name = "fill" then .modeled ((∅ : Model).addGeneration (.argument 0) (.ofKind ⟨0⟩) ∅)
    else .obscure

theorem generations_seeded_filling :
    fillingSeeded.method.body = some filling ∧ fillingSeeded.declaredSources.AtParameters ∧
      SuppliedAt fillingSeeded filling (.argument 0) (.ofKind ⟨0⟩) := by
  have hsources : fillingSeeded.declaredSources.AtParameters := by decide
  have hlost : ¬ FrameSet.Has ((run fillingSeeded).model.generations.getD (.argument 0) ∅)
      (.ofKind ⟨0⟩) := by decide
  have hgenerated : FrameSet.Has
      ((run fillingSeeded.unseeded).model.generations.getD (.argument 0) ∅) (.ofKind ⟨0⟩) := by
    decide
  have hseeded := (generations_seeded (w := fillingSeeded) rfl hsources _ _).1 hgenerated
  exact ⟨rfl, hsources, (hseeded.resolve_left hlost).2⟩

/-- A declared source can suppress a generation. -/
theorem seeded_suppresses :
    ¬ ∀ (w : Walk) (body : Body), w.method.body = some body → w.declaredSources.AtParameters →
      ∀ port f, FrameSet.Has ((run w.unseeded).model.generations.getD port ∅) f →
        FrameSet.Has ((run w).model.generations.getD port ∅) f := by
  intro h
  exact absurd (h fillingSeeded filling rfl (by decide) (.argument 0) (.ofKind ⟨0⟩) (by decide))
    (by decide)

end MethodAnalysis

end TaintFlow
