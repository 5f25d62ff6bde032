import TaintFlow.Proofs.CallSources
import TaintFlow.Proofs.Inference
import TaintFlow.Proofs.Reached

/-!
Summaries agree with the flows inside. A kind that is declared at a parameter goes wherever the
parameter goes: every set of frames has the kind just as it has a frame of the parameter that admits
the kind, with the same transforms (`FrameSet.Paired`). Calls and joins keep this as long as no
callee generates the kind, so that what a summary says about the parameter is what is observed of the
kind, and handed back of it (`MethodAnalysis.run_paired`).
-/

namespace TaintFlow

variable {index : Nat} {kind : KindId} {transforms : List KindId}

/-! ### Frames -/

namespace Frame

def IsSource (kind : KindId) (transforms : List KindId) (f : Frame) : Prop :=
  f.kind? = some kind ∧ f.transforms = transforms

def IsOpen (index : Nat) (kind : KindId) (transforms : List KindId) (f : Frame) : Prop :=
  (∃ path, f.label = .argument index path) ∧ f.transforms = transforms ∧ kind ∉ f.sanitizers

theorem isSource_below {f : Frame} {path : Path} {depth : Nat} :
    (f.below path depth).IsSource kind transforms ↔ f.IsSource kind transforms := by
  obtain ⟨label, own, sanitizers⟩ := f
  cases label <;> rfl

theorem isOpen_below {f : Frame} {path : Path} {depth : Nat} :
    (f.below path depth).IsOpen index kind transforms ↔ f.IsOpen index kind transforms := by
  obtain ⟨label, own, sanitizers⟩ := f
  cases label <;> simp [below, IsOpen]

theorem IsSource.isArgument {f : Frame} (hf : f.IsSource kind transforms) :
    f.isArgument = false := by
  rw [Frame.isArgument, hf.1]
  rfl

theorem IsOpen.isArgument {f : Frame} (hf : f.IsOpen index kind transforms) :
    f.isArgument = true := by
  obtain ⟨⟨path, hlabel⟩, -⟩ := hf
  rw [Frame.isArgument, kind?, hlabel]
  rfl

theorem admits_of_isSource {f sink : Frame} (hf : f.IsSource kind transforms) :
    sink.admits f = true ↔ kind ∉ sink.sanitizers := by
  rw [admits, hf.1, Bool.not_eq_true']
  exact Bool.eq_false_iff

end Frame

/-! ### Frame sets -/

namespace FrameSet

variable {s t : FrameSet}

def HasSource (s : FrameSet) (kind : KindId) (transforms : List KindId) : Prop :=
  ∃ f, s.Has f ∧ f.IsSource kind transforms

def HasOpen (s : FrameSet) (index : Nat) (kind : KindId) (transforms : List KindId) : Prop :=
  ∃ f, s.Has f ∧ f.IsOpen index kind transforms

/-- A set has a kind just as it has a parameter that admits the kind. -/
def Paired (index : Nat) (kind : KindId) (s : FrameSet) : Prop :=
  ∀ transforms, s.HasSource kind transforms ↔ s.HasOpen index kind transforms

theorem hasSource_join : (s.join t).HasSource kind transforms ↔
    s.HasSource kind transforms ∨ t.HasSource kind transforms := by
  simp only [HasSource, has_join, or_and_right, exists_or]

theorem hasOpen_join : (s.join t).HasOpen index kind transforms ↔
    s.HasOpen index kind transforms ∨ t.HasOpen index kind transforms := by
  simp only [HasOpen, has_join, or_and_right, exists_or]

/-- What refinement keeps of every frame it keeps of the set. -/
theorem exists_has_below {Q : Frame → Prop} {path : Path} {depth : Nat}
    (hQ : ∀ f : Frame, Q (f.below path depth) ↔ Q f) :
    (∃ f, (s.below path depth).Has f ∧ Q f) ↔ ∃ f, s.Has f ∧ Q f := by
  constructor
  · rintro ⟨f, hf, hQf⟩
    obtain ⟨e, he, info, heq⟩ := has_mapFrames.1 hf
    cases heq
    exact ⟨e.1, has_iff_mem.2 ⟨e.2, he⟩, (hQ e.1).1 hQf⟩
  · rintro ⟨f, hf, hQf⟩
    obtain ⟨info, hinfo⟩ := has_iff_mem.1 hf
    exact ⟨_, has_mapFrames.2 ⟨(f, info), hinfo, info, rfl⟩, (hQ f).2 hQf⟩

/-- The copied frames are the copies of frames. -/
theorem has_copies {p : Propagation} {limit : Nat} {f : Frame} :
    (s.mapFrames (p.copy limit)).Has f ↔
      ∃ own, s.Has own ∧ (p.copy limit own ∅).map Prod.fst = some f := by
  have hholds : ((Node.bare s).mapFrames (mapFrames (p.copy limit))).Holds [] f ↔
      ∃ own, (Node.bare s).Holds [] own ∧ (p.copy limit own ∅).map Prod.fst = some f :=
    Node.holds_mapFrames Propagation.copy_fst
  exact hholds

theorem paired_closed (index : Nat) (kind : KindId) (depth : Nat) :
    (Vocabulary.ofFrames (Paired index kind)).Closed depth where
  level_of_lt _ := trivial
  level_pred _ := trivial
  empty transforms := by simp [HasSource, HasOpen, not_has_empty]
  join hs ht transforms := by rw [hasSource_join, hasOpen_join, hs, ht]
  below _ hs transforms := by
    unfold HasSource HasOpen
    rw [exists_has_below fun _ => Frame.isSource_below, exists_has_below fun _ => Frame.isOpen_below]
    exact hs transforms
  addFeature _ hs transforms := by
    unfold HasSource HasOpen
    simp only [has_addFeature]
    exact hs transforms

end FrameSet

/-! ### Copies -/

namespace Propagation

variable {p : Propagation} {limit : Nat}

theorem copy_isSource {own f : Frame} (hcopy : (p.copy limit own ∅).map Prod.fst = some f) :
    f.IsSource kind transforms ↔ kind ∉ p.sanitizers ∧
      own.IsSource kind own.transforms ∧
        transforms = own.transforms ++ p.transforms.take (limit - own.transforms.length) := by
  obtain ⟨label, own, sanitizers⟩ := own
  cases label with
  | kind id =>
    have hkept : id ∉ p.sanitizers := by
      intro hid
      have hcontains : p.sanitizers.contains id = true := hid
      simp [copy, Frame.kind?, hcontains] at hcopy
    have hcontains : p.sanitizers.contains id = false := Bool.eq_false_iff.2 hkept
    simp only [copy, Frame.kind?, Option.any_some, hcontains, Bool.false_eq_true, if_false,
      Option.map_some, Option.some.injEq] at hcopy
    subst hcopy
    constructor
    · rintro ⟨hid, rfl⟩
      obtain rfl : id = kind := Option.some.inj hid
      exact ⟨hkept, ⟨rfl, rfl⟩, rfl⟩
    · rintro ⟨-, ⟨hid, -⟩, rfl⟩
      exact ⟨hid, rfl⟩
  | argument index path =>
    have hargument : f.isArgument = true := (isArgument_copy hcopy).symm
    refine iff_of_false (fun hf => ?_) fun hf => ?_
    · rw [hf.isArgument] at hargument
      cases hargument
    · cases hf.2.1.1

theorem copy_isOpen {own f : Frame} (hcopy : (p.copy limit own ∅).map Prod.fst = some f) :
    f.IsOpen index kind transforms ↔ kind ∉ p.sanitizers ∧
      own.IsOpen index kind own.transforms ∧
        transforms = own.transforms ++ p.transforms.take (limit - own.transforms.length) := by
  obtain ⟨label, own, sanitizers⟩ := own
  cases label with
  | kind id =>
    have hargument : f.isArgument = false := (isArgument_copy hcopy).symm
    refine iff_of_false (fun hf => ?_) fun hf => ?_
    · rw [hf.isArgument] at hargument
      cases hargument
    · obtain ⟨path, hlabel⟩ := hf.2.1.1
      cases hlabel
  | argument i path =>
    simp only [copy, Frame.kind?, Option.any_none, Bool.false_eq_true, if_false, Option.map_some,
      Option.some.injEq, Frame.isArgument, Option.isNone_none, if_true] at hcopy
    subst hcopy
    have hsanitizers : kind ∉ sanitizers ∪ p.sanitizers ↔
        kind ∉ p.sanitizers ∧ kind ∉ sanitizers := by
      rw [OrdSet.mem_union, not_or, and_comm]
    constructor
    · rintro ⟨hlabel, rfl, hkind⟩
      obtain ⟨hkept, hown⟩ := hsanitizers.1 hkind
      exact ⟨hkept, ⟨hlabel, rfl, hown⟩, rfl⟩
    · rintro ⟨hkept, ⟨hlabel, -, hown⟩, rfl⟩
      exact ⟨hlabel, rfl, hsanitizers.2 ⟨hkept, hown⟩⟩

/-- Copies of frames that come in pairs do so. -/
theorem paired_copies {s : FrameSet} (hs : s.Paired index kind) :
    FrameSet.Paired index kind (s.mapFrames (p.copy limit)) := by
  have hcopied (own : Frame) (hkept : kind ∉ p.sanitizers)
      (hown : own.IsSource kind own.transforms ∨ own.IsOpen index kind own.transforms) :
      ∃ f, (p.copy limit own ∅).map Prod.fst = some f := by
    unfold copy
    simp only
    split
    · next hany =>
      rcases hown with hown | hown
      · rw [hown.1] at hany
        exact absurd hany hkept
      · obtain ⟨⟨path, hlabel⟩, -⟩ := hown
        rw [Frame.kind?, hlabel] at hany
        cases hany
    · exact ⟨_, rfl⟩
  -- what is copied has a partner, whose copy has the same transforms after it
  intro transforms
  constructor
  · rintro ⟨f, hf, hsource⟩
    obtain ⟨own, hown, hcopy⟩ := FrameSet.has_copies.1 hf
    obtain ⟨hkept, hownSource, rfl⟩ := (copy_isSource hcopy).1 hsource
    obtain ⟨partner, hpartner, hopen⟩ := (hs own.transforms).1 ⟨own, hown, hownSource⟩
    have htransforms := hopen.2.1
    rw [← htransforms] at hopen ⊢
    obtain ⟨g, hg⟩ := hcopied partner hkept (.inr hopen)
    exact ⟨g, FrameSet.has_copies.2 ⟨partner, hpartner, hg⟩,
      (copy_isOpen hg).2 ⟨hkept, hopen, rfl⟩⟩
  · rintro ⟨f, hf, hopen⟩
    obtain ⟨own, hown, hcopy⟩ := FrameSet.has_copies.1 hf
    obtain ⟨hkept, hownOpen, rfl⟩ := (copy_isOpen hcopy).1 hopen
    obtain ⟨partner, hpartner, hsource⟩ := (hs own.transforms).2 ⟨own, hown, hownOpen⟩
    have htransforms := hsource.2
    rw [← htransforms] at hsource ⊢
    obtain ⟨g, hg⟩ := hcopied partner hkept (.inl hsource)
    exact ⟨g, FrameSet.has_copies.2 ⟨partner, hpartner, hg⟩,
      (copy_isSource hg).2 ⟨hkept, hsource, rfl⟩⟩

end Propagation

/-- All that a callee generates are kinds, and other ones than a given kind. -/
def Callee.GeneratesOnlyOthers (kind : KindId) : Callee → Prop
  | .modeled model => ∀ port f, FrameSet.Has (model.generations.getD port ∅) f →
      ∃ id, f.kind? = some id ∧ id ≠ kind
  | .obscure => True

theorem Callee.GeneratesOnlyOthers.fits {callee : Callee} (h : Heuristics) (stepOf : Port → Step)
    (hcallee : callee.GeneratesOnlyOthers kind) :
    callee.Fits (.ofFrames (FrameSet.Paired index kind)) h stepOf := by
  cases callee with
  | obscure => trivial
  | modeled model =>
    refine ⟨fun e he => ⟨Vocabulary.path_ofFrames _, fun transforms => ?_⟩,
      fun _ _ => Vocabulary.path_ofFrames _, fun _ _ => ⟨Vocabulary.path_ofFrames _,
        Vocabulary.path_ofFrames _, fun _ hfs => Propagation.paired_copies hfs⟩⟩
    have hothers (f : Frame) (hf : FrameSet.Has (FrameSet.addStep e.2
        (stepOf (e.1.normalize h.maxFieldDepth)) h.maxTraceLength) f) :
        ∃ id, f.kind? = some id ∧ id ≠ kind := by
      refine hcallee e.1 f ?_
      rw [OrdMap.getD, OrdMap.get?_eq_some_iff.2 he]
      exact FrameSet.has_addStep.1 hf
    -- what is generated is neither the kind nor a parameter
    refine iff_of_false ?_ ?_
    · rintro ⟨f, hf, hsource, -⟩
      obtain ⟨id, hid, hne⟩ := hothers f hf
      exact hne (Option.some.inj (hid.symm.trans hsource))
    · rintro ⟨f, hf, ⟨path, hlabel⟩, -⟩
      obtain ⟨id, hid, -⟩ := hothers f hf
      rw [Frame.kind?, hlabel] at hid
      cases hid

/-! ### Observations -/

/-- A kind is observed at a sink that admits it just as the parameter is that admits it. -/
def Observation.Paired (index : Nat) (kind : KindId) (o : Observation) : Prop :=
  ∀ transforms, o.sources.HasSource kind transforms ↔
    o.parameters.HasOpen index kind transforms ∧ kind ∉ o.sink.sanitizers

namespace Observation

variable {o o' : Observation}

theorem Paired.of_reaching {reached : FrameSet} (hreached : reached.Paired index kind)
    (hparameters : o.parameters = reached.arguments)
    (hsources : o.sources = OrdMap.filter (fun f _ => o.sink.admits f) reached.sources) :
    o.Paired index kind := by
  have hsource (f : Frame) :
      o.sources.Has f ↔ reached.Has f ∧ f.isArgument = false ∧ o.sink.admits f = true := by
    rw [hsources, FrameSet.has_filter fun _ _ => rfl, FrameSet.sources,
      FrameSet.has_filter fun _ _ => rfl, Bool.not_eq_true', and_assoc]
  have hparameter (f : Frame) : o.parameters.Has f ↔ reached.Has f ∧ f.isArgument = true := by
    rw [hparameters, FrameSet.arguments, FrameSet.has_filter fun _ _ => rfl]
  intro transforms
  have hopen : o.parameters.HasOpen index kind transforms ↔
      reached.HasOpen index kind transforms := by
    constructor
    · rintro ⟨f, hf, hopen⟩
      exact ⟨f, ((hparameter f).1 hf).1, hopen⟩
    · rintro ⟨f, hf, hopen⟩
      exact ⟨f, (hparameter f).2 ⟨hf, hopen.isArgument⟩, hopen⟩
  rw [hopen, ← hreached]
  constructor
  · rintro ⟨f, hf, hfSource⟩
    obtain ⟨hreaches, -, hadmits⟩ := (hsource f).1 hf
    exact ⟨⟨f, hreaches, hfSource⟩, (Frame.admits_of_isSource hfSource).1 hadmits⟩
  · rintro ⟨⟨f, hreaches, hfSource⟩, hkind⟩
    exact ⟨f, (hsource f).2
      ⟨hreaches, hfSource.isArgument, (Frame.admits_of_isSource hfSource).2 hkind⟩, hfSource⟩

theorem Paired.join (ho : o.Paired index kind) (ho' : o'.Paired index kind)
    (hkey : o.key = o'.key) : (o.join o').Paired index kind := by
  have hsink : o.sink = o'.sink := congrArg (fun k : Key => k.2.2) hkey
  intro transforms
  show (o.sources.join o'.sources).HasSource kind transforms ↔
    (o.parameters.join o'.parameters).HasOpen index kind transforms ∧ kind ∉ o.sink.sanitizers
  rw [FrameSet.hasSource_join, FrameSet.hasOpen_join, ho, ho', ← hsink, or_and_right]

end Observation

/-! ### The entry of a method -/

namespace Walk

variable {w : Walk}

theorem ownFrame_paired {i : Nat} (hi : i ≠ index) :
    FrameSet.Paired index kind (.singleton (.ofArgument i []) ∅) := by
  intro transforms
  refine iff_of_false ?_ ?_
  · rintro ⟨f, hf, hsource, -⟩
    rw [FrameSet.has_singleton.1 hf] at hsource
    cases hsource
  · rintro ⟨f, hf, ⟨path, hlabel⟩, -⟩
    rw [FrameSet.has_singleton.1 hf] at hlabel
    cases hlabel
    exact hi rfl

/-- The declared kind beside the frame of its parameter. -/
theorem seeded_paired (info : FrameInfo) :
    FrameSet.Paired index kind
      (((∅ : FrameSet).add (.ofKind kind) info).join (.singleton (.ofArgument index []) ∅)) := by
  have hhas (f : Frame) : FrameSet.Has
      (((∅ : FrameSet).add (.ofKind kind) info).join (.singleton (.ofArgument index []) ∅)) f ↔
        f = .ofKind kind ∨ f = .ofArgument index [] := by
    rw [FrameSet.has_join, FrameSet.has_add, FrameSet.has_singleton,
      or_iff_left (FrameSet.not_has_empty f)]
  intro transforms
  have hsource (h : [] = transforms) : (Frame.ofKind kind).IsSource kind transforms := ⟨rfl, h⟩
  have hopen (h : [] = transforms) : (Frame.ofArgument index []).IsOpen index kind transforms :=
    ⟨⟨[], rfl⟩, h, fun hkind => by cases hkind⟩
  constructor
  · rintro ⟨f, hf, hf'⟩
    rcases (hhas f).1 hf with rfl | rfl
    · exact ⟨_, (hhas _).2 (.inr rfl), hopen hf'.2⟩
    · cases hf'.1
  · rintro ⟨f, hf, hf'⟩
    rcases (hhas f).1 hf with rfl | rfl
    · obtain ⟨path, hlabel⟩ := hf'.1
      cases hlabel
    · exact ⟨_, (hhas _).2 (.inl rfl), hsource hf'.2.1⟩

/-- A parameter holds the declared kind beside its own frame when the method is entered. -/
theorem entry_paired {info : FrameInfo}
    (hdeclared : (w.method.declared.getD ∅).parameterSources =
      PortFrames.add ∅ (.argument index) (.ofKind kind) info) :
    w.entry.Fits (.ofFrames (FrameSet.Paired index kind)) := by
  have hentry : w.entry =
      w.seed w.bound (.argument index) ((∅ : FrameSet).add (.ofKind kind) info) := by
    rw [entry_eq, hdeclared]
    rfl
  have hbound {o : Origin} {tree : TaintTree} (htree : w.bound.tree? o = some tree)
      (ho : index < w.method.parameters.length →
        o ≠ (Location.parameter w.method.id index).origin) :
      tree.Fits (.ofFrames (FrameSet.Paired index kind)) := by
    obtain ⟨i, hi, rfl, rfl⟩ := tree?_bound.1 htree
    refine ownFrame_paired fun h => ?_
    subst h
    exact ho hi rfl
  -- only the tree of the parameter itself is seeded, and that of an index out of range is not there
  refine ⟨fun _ l _ => l.fits_ofFrames, fun o tree htree => ⟨trivial, ?_⟩⟩
  rw [hentry] at htree
  unfold seed at htree
  simp only [Port.argument] at htree
  split at htree
  · next hindex =>
    have hown : w.bound.tree? (Location.parameter w.method.id index).origin =
        some (ownTree index) := tree?_bound.2 ⟨index, hindex, rfl, rfl⟩
    rw [State.tree?_writeAt] at htree
    split at htree
    · rw [State.treeOf, hown] at htree
      cases htree
      rw [Path.normalize_nil]
      show TaintTree.Fits _ ((TaintTree.leaf _).write [] (.leaf _) false _)
      rw [TaintTree.write_leaf_weak]
      exact seeded_paired info
    · next hne => exact hbound htree fun _ => hne
  · next hindex => exact hbound htree fun h => absurd h hindex

/-- A walk with callees that generate only other kinds keeps the kind beside the parameter. -/
theorem fits_paired {info : FrameInfo} (body : Body)
    (hdeclared : (w.method.declared.getD ∅).parameterSources =
      PortFrames.add ∅ (.argument index) (.ofKind kind) info)
    (hothers : ∀ name, (w.summaries name).GeneratesOnlyOthers kind) :
    w.Fits (.ofFrames (FrameSet.Paired index kind)) body where
  closed := FrameSet.paired_closed index kind _
  entry := entry_paired hdeclared
  origins _ _ := trivial
  fields i _ := Instruction.fits_of_path Vocabulary.path_ofFrames i.2
  callees call _ := (hothers call.2).fits w.heuristics (w.stepAt call)

end Walk

/-! ### Summaries -/

namespace MethodAnalysis

variable {w : Walk} {body : Body} {info : FrameInfo}

theorem run_of_body (hbody : w.method.body = some body) :
    run w = ⟨infer w (w.gather body), (w.gather body).observations.values⟩ := by
  unfold run
  rw [hbody]

/-- Each observation has the kind just as it has the parameter. -/
theorem observations_paired
    (hdeclared : (w.method.declared.getD ∅).parameterSources =
      PortFrames.add ∅ (.argument index) (.ofKind kind) info)
    (hothers : ∀ name, (w.summaries name).GeneratesOnlyOthers kind)
    {o : Observation} (ho : o ∈ (w.gather body).observations.values) : o.Paired index kind := by
  obtain ⟨k, hk⟩ := OrdMap.mem_values.1 ho
  rw [Walk.observations_gather] at hk
  refine Observations.forall_addAll_of_key (Q := Observation.Paired index kind) (fun o ho => ?_)
    (fun _ _ h h' hkey => h.join h' hkey) hk
  obtain ⟨e, he, ho⟩ := List.mem_flatMap.1 ho
  obtain ⟨-, reached, hreached, hparameters, hsources⟩ :=
    (Walk.fits_paired body hdeclared hothers).observed he ho
  exact .of_reaching hreached hparameters hsources

/-- The sinks that are inferred at a parameter and admit a kind are those at which the kind is
observed. -/
theorem sinks_paired {g : Walk.Gathered}
    (hobservations : ∀ o ∈ g.observations.values, o.Paired index kind) (label : Label) :
    (∃ path f, FrameSet.Has ((infer w g).sinks.getD ⟨.argument index, path⟩ ∅) f ∧
      f.label = label ∧ f.transforms = transforms ∧ kind ∉ f.sanitizers) ↔
    ∃ o ∈ g.observations.values, ∃ own, o.sources.HasSource kind own ∧ o.sink.label = label ∧
      transforms = (own ++ o.sink.transforms).take w.heuristics.maxTransformLength := by
  constructor
  · rintro ⟨path, f, hf, rfl, rfl, hkind⟩
    obtain ⟨o, ho, own, info, i, _, hown, hlabel, hport, rfl⟩ := has_sinks.1 hf
    cases hport
    obtain ⟨hkindOwn, hkindSink⟩ := not_or.1 (mt OrdSet.mem_union.2 hkind)
    exact ⟨o, ho, own.transforms, (hobservations o ho _).2
      ⟨⟨own, FrameSet.has_iff_mem.2 ⟨info, hown⟩, ⟨path, hlabel⟩, rfl, hkindOwn⟩, hkindSink⟩, rfl, rfl⟩
  · rintro ⟨o, ho, _, hsource, rfl, rfl⟩
    obtain ⟨⟨own, hown, ⟨path, hlabel⟩, rfl, hkindOwn⟩, hkindSink⟩ := (hobservations o ho _).1 hsource
    obtain ⟨info, hinfo⟩ := FrameSet.has_iff_mem.1 hown
    exact ⟨path, _, has_sinks.2 ⟨o, ho, own, info, index, path, hinfo, hlabel, rfl, rfl⟩, rfl, rfl,
      mt OrdSet.mem_union.1 (not_or.2 ⟨hkindOwn, hkindSink⟩)⟩

/-- A kind is generated at the result just as its parameter is propagated there. -/
theorem generations_paired {g : Walk.Gathered}
    (hreturned : g.returned.Fits (.ofFrames (FrameSet.Paired index kind))) (path : Path) :
    FrameSet.HasSource ((infer w g).generations.getD ⟨.result, path⟩ ∅) kind transforms ↔
    ∃ p ∈ (infer w g).propagations, p.input.root = .argument index ∧ p.output = ⟨.result, path⟩ ∧
      p.transforms = transforms ∧ kind ∉ p.sanitizers := by
  constructor
  · rintro ⟨f, hf, hsource⟩
    obtain ⟨-, info, hinfo⟩ := has_generations.1 hf
    obtain ⟨fs, hnode, hmem⟩ := mem_handedBack_result.1 hinfo
    obtain ⟨own, hown, ⟨input, hlabel⟩, rfl, hkind⟩ :=
      ((hreturned.of_mem_nodes hnode).2 transforms).1
        ⟨f, FrameSet.has_iff_mem.2 ⟨info, hmem⟩, hsource⟩
    obtain ⟨ownInfo, hownInfo⟩ := FrameSet.has_iff_mem.1 hown
    -- the partner is handed back at the same path, so that a propagation goes its route
    let route : Route := ⟨index, ⟨.result, path⟩, own.transforms, own.sanitizers⟩
    have hhanded : (route.output, route.frame input, ownInfo) ∈ handedBack w g := by
      have hframe : route.frame input = own := by
        unfold Route.frame
        rw [← hlabel]
      rw [hframe]
      exact mem_handedBack_result.2 ⟨fs, hnode, hownInfo⟩
    obtain ⟨inputs, -, -, p, hp, hinput, houtput, htransforms, hsanitizers⟩ :=
      exists_propagation hhanded
    exact ⟨p, hp, congrArg Port.root hinput, houtput, htransforms, hsanitizers ▸ hkind⟩
  · rintro ⟨p, hp, hinput, houtput, rfl, hkind⟩
    obtain ⟨-, ⟨i, input, info, hroot, -, hinfo⟩, -⟩ := of_mem_propagations hp
    rw [houtput] at hinfo
    cases hroot.symm.trans hinput
    obtain ⟨fs, hnode, hmem⟩ := mem_handedBack_result.1 hinfo
    obtain ⟨f, hf, hsource⟩ := ((hreturned.of_mem_nodes hnode).2 p.transforms).2
      ⟨_, FrameSet.has_iff_mem.2 ⟨info, hmem⟩, ⟨input, rfl⟩, rfl, hkind⟩
    obtain ⟨info', hinfo'⟩ := FrameSet.has_iff_mem.1 hf
    exact ⟨f, has_generations.2
      ⟨hsource.isArgument, info', mem_handedBack_result.2 ⟨fs, hnode, hinfo'⟩⟩, hsource⟩

/-- If a kind is declared at a parameter, and only there, and no callee generates it, then the
inferred model says of the parameter what is found of the kind: it is observed where the parameter
is and the sink admits it, the sinks at the parameter that admit it are those at which it is
observed, and it is generated where the parameter is propagated and admits it. -/
theorem run_paired
    (hdeclared : (w.method.declared.getD ∅).parameterSources =
      PortFrames.add ∅ (.argument index) (.ofKind kind) info)
    (hothers : ∀ name, (w.summaries name).GeneratesOnlyOthers kind) :
    (∀ o ∈ (run w).observations, o.Paired index kind) ∧
    (∀ label transforms,
      (∃ path f, FrameSet.Has ((run w).model.sinks.getD ⟨.argument index, path⟩ ∅) f ∧
        f.label = label ∧ f.transforms = transforms ∧ kind ∉ f.sanitizers) ↔
      ∃ o ∈ (run w).observations, ∃ own, o.sources.HasSource kind own ∧ o.sink.label = label ∧
        transforms = (own ++ o.sink.transforms).take w.heuristics.maxTransformLength) ∧
    ∀ path transforms,
      FrameSet.HasSource ((run w).model.generations.getD ⟨.result, path⟩ ∅) kind transforms ↔
      ∃ p ∈ (run w).model.propagations, p.input.root = .argument index ∧
        p.output = ⟨.result, path⟩ ∧ p.transforms = transforms ∧ kind ∉ p.sanitizers := by
  cases hbody : w.method.body with
  | none =>
    have hrun : run w = ⟨∅, []⟩ := by
      unfold run
      rw [hbody]
    rw [hrun]
    refine ⟨nofun, fun label transforms => iff_of_false ?_ ?_, fun path transforms =>
      iff_of_false ?_ ?_⟩
    · rintro ⟨path, f, hf, -⟩
      exact FrameSet.not_has_empty f hf
    · rintro ⟨o, ho, -⟩
      cases ho
    · rintro ⟨f, hf, -⟩
      exact FrameSet.not_has_empty f hf
    · rintro ⟨p, hp, -⟩
      cases hp
  | some body =>
    have hobservations : ∀ o ∈ (w.gather body).observations.values, o.Paired index kind :=
      fun o ho => observations_paired hdeclared hothers ho
    have hreturned := (Walk.fits_paired body hdeclared hothers).returned
    rw [run_of_body hbody]
    exact ⟨hobservations, fun label transforms => sinks_paired hobservations label,
      fun path transforms => generations_paired hreturned path⟩

/-- Filters its parameter, which is declared to hold a kind, uses the outcome and hands it back. -/
def filtering : Method :=
  ⟨⟨0⟩, "main", ["x"], some
    (.run ⟨0, none⟩ (.call "filter" ["x"] (some "y"))
      (.run ⟨1, none⟩ (.call "use" ["y"] none)
        (.leave ⟨2, none⟩ (some "y") .done))),
    some ((∅ : Model).addParameterSource (.argument 0) (.ofKind ⟨0⟩) ∅)⟩

/-- A filter transforms what it hands back and removes another kind. -/
def filters (name : String) : Callee :=
  if name = "filter" then
    .modeled ((∅ : Model).addPropagation
      ⟨.argument 0, .result, [⟨1⟩], OrdSet.ofList [⟨2⟩], false, ∅⟩)
  else .modeled ((∅ : Model).addSink (.argument 0) (.ofKind ⟨3⟩) ∅)

theorem run_paired_filtering :
    (∀ name, (filters name).GeneratesOnlyOthers ⟨0⟩) ∧
    (∃ path f, FrameSet.Has ((run ⟨filtering, {}, filters⟩).model.sinks.getD ⟨.argument 0, path⟩ ∅) f ∧
      f.label = .kind ⟨3⟩ ∧ f.transforms = [⟨1⟩] ∧ (⟨0⟩ : KindId) ∉ f.sanitizers) ∧
    ∃ p ∈ (run ⟨filtering, {}, filters⟩).model.propagations, p.input.root = .argument 0 ∧
      p.output = .result ∧ p.transforms = [⟨1⟩] ∧ (⟨0⟩ : KindId) ∉ p.sanitizers := by
  have hothers (name : String) : (filters name).GeneratesOnlyOthers ⟨0⟩ := by
    unfold filters
    split <;> exact fun port f hf => absurd hf (FrameSet.not_has_empty f)
  have hobserved : (run ⟨filtering, {}, filters⟩).observations.any (fun o =>
      (o.sources.get? ⟨.kind ⟨0⟩, [⟨1⟩], ∅⟩).isSome && o.sink == .ofKind ⟨3⟩) = true := by decide
  have hgenerated : FrameSet.Has ((run ⟨filtering, {}, filters⟩).model.generations.getD .result ∅)
      ⟨.kind ⟨0⟩, [⟨1⟩], ∅⟩ := Option.isSome_iff_exists.1 (by decide)
  obtain ⟨-, hsinks, hgenerations⟩ := run_paired (w := ⟨filtering, {}, filters⟩) rfl hothers
  refine ⟨hothers, (hsinks _ _).2 ?_, (hgenerations [] [⟨1⟩]).1 ⟨_, hgenerated, rfl, rfl⟩⟩
  obtain ⟨o, ho, hsource⟩ := List.any_eq_true.1 hobserved
  simp only [Bool.and_eq_true, beq_iff_eq] at hsource
  obtain ⟨hsource, hsink⟩ := hsource
  exact ⟨o, ho, [⟨1⟩], ⟨_, Option.isSome_iff_exists.1 hsource, rfl, rfl⟩, congrArg Frame.label hsink,
    by rw [hsink]; rfl⟩

end MethodAnalysis

end TaintFlow
