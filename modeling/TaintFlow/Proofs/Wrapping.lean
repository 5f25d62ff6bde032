import Mathlib.Data.List.Nodup
import TaintFlow.Proofs.ReadPaths

/-!
Calls through a wrapper, a method that hands its parameters to another one and returns what it gets.
What the wrapped method hands back of a parameter, the wrapper returns as a frame of the parameter,
so that its inferred model propagates it; what the wrapped method generates, the wrapper does. Hence
no source is lost by wrapping a call (`Wrapper.run_wrapped`). Where fields are merged, input paths
are thinned out or nothing is known of the wrapped method, it may be read at another path of the
result: the wrapper's model copies arguments with their fields, and an obscure call flattens them.
-/

namespace TaintFlow

open Node (Sub)

variable {depth : Nat} {f : Frame}

/-! ### What is inferred of a returned tree -/

namespace MethodAnalysis

variable {w : Walk} {g : Walk.Gathered} {names : List String}

def thinsInputs (w : Walk) (g : Walk.Gathered) : Bool :=
  (routes (handedBack w g)).values.any fun inputs =>
    inputs.keys.any fun path => standIn w.heuristics.maxInputPathLeaves inputs path != path

theorem mem_handedBack_of_lists (h : g.returned.root.Lists names f) :
    ∃ info, (⟨.result, names.map .field⟩, f, info) ∈ handedBack w g := by
  obtain ⟨fs, hfs, hf⟩ := TaintTree.mem_nodes_of_lists h
  obtain ⟨info, hinfo⟩ := FrameSet.has_iff_mem.1 hf
  exact ⟨info, mem_handedBack_result.2 ⟨fs, hfs, hinfo⟩⟩

/-- A source that is listed in what is returned is generated there. -/
theorem has_generations_of_lists (hf : f.isArgument = false) (h : g.returned.root.Lists names f) :
    FrameSet.Has ((infer w g).generations.getD ⟨.result, names.map .field⟩ ∅) f :=
  has_generations.2 ⟨hf, mem_handedBack_of_lists h⟩

/-- A frame of a parameter that is listed in what is returned is propagated there, from its path or,
if the input paths are thinned out, from above it. -/
theorem exists_propagation_of_lists {index : Nat} {path : Path} {transforms : List KindId}
    {sanitizers : OrdSet KindId}
    (h : g.returned.root.Lists names ⟨.argument index path, transforms, sanitizers⟩) :
    ∃ p ∈ (infer w g).propagations, ∃ input, p.input = ⟨.argument index, input⟩ ∧ input <+: path ∧
      (thinsInputs w g = false → input = path) ∧ p.output = ⟨.result, names.map .field⟩ ∧
        p.transforms = transforms ∧ p.sanitizers = sanitizers := by
  obtain ⟨info, hinfo⟩ := mem_handedBack_of_lists (w := w) h
  let route : Route := ⟨index, ⟨.result, names.map .field⟩, transforms, sanitizers⟩
  have hhanded : (route.output, route.frame path, info) ∈ handedBack w g := hinfo
  obtain ⟨inputs, hroute, ⟨fs, hfs⟩, p, hp, hinput, houtput, htransforms, hsanitizers⟩ :=
    exists_propagation hhanded
  refine ⟨p, hp, _, hinput, standIn_prefix _ _ _, fun hthins => ?_, houtput, htransforms,
    hsanitizers⟩
  have hkept := List.any_eq_false.1 hthins inputs (OrdMap.mem_values.2 ⟨_, hroute⟩)
  rw [Bool.not_eq_true, List.any_eq_false] at hkept
  simpa using hkept path (OrdMap.mem_keys.2 ⟨fs, hfs⟩)

end MethodAnalysis

/-! ### The wrapping method -/

/-- A method that hands its parameters to another one and returns what it gets. -/
structure Wrapper where
  id : MethodId
  name : String
  callee : String
  parameters : List String
  result : String
  callPlace : Place Nat
  returnPlace : Place Nat
  nodup : parameters.Nodup

namespace Wrapper

variable {m : Wrapper} {h : Heuristics} {summaries : String → Callee} {index : Nat}

def body (m : Wrapper) : Body :=
  .run m.callPlace (.call m.callee m.parameters (some m.result))
    (.leave m.returnPlace (some m.result) .done)

def method (m : Wrapper) : Method := ⟨m.id, m.name, m.parameters, some m.body, none⟩

def walk (m : Wrapper) (h : Heuristics) (summaries : String → Callee) : Walk :=
  ⟨m.method, h, summaries⟩

def gathered (m : Wrapper) (h : Heuristics) (summaries : String → Callee) : Walk.Gathered :=
  (m.walk h summaries).gather m.body

def model (m : Wrapper) (h : Heuristics) (summaries : String → Callee) : Model :=
  (MethodAnalysis.run (m.walk h summaries)).model

def entry (m : Wrapper) (h : Heuristics) (summaries : String → Callee) : State :=
  (m.walk h summaries).entry

def call (m : Wrapper) (h : Heuristics) (summaries : String → Callee) : Call :=
  ⟨m.name, ⟨m.id, m.callPlace.position⟩, m.callee, m.parameters.map (m.entry h summaries).read⟩

def exit (m : Wrapper) (h : Heuristics) (summaries : String → Callee) : State :=
  ((m.call h summaries).run h (summaries m.callee) (some m.result) (m.entry h summaries)).1

theorem returned_eq : (m.gathered h summaries).returned =
    (∅ : TaintTree).join ((m.exit h summaries).readRegister m.result h.maxFieldDepth)
      h.maxFieldDepth := rfl

/-- What a location that the wrapper returns lists is listed in what it returns. -/
theorem lists_returned {l : Location} {names : List String}
    (hl : l ∈ (m.exit h summaries).read m.result)
    (hlists : ((m.exit h summaries).readAt l [] h.maxFieldDepth).root.Lists names f) :
    (m.gathered h summaries).returned.root.Lists names f := by
  rw [returned_eq]
  exact (State.lists_readAll hl hlists).join_right _

theorem read_entry (hindex : index < m.parameters.length) :
    (m.entry h summaries).read m.parameters[index] =
      OrdSet.ofList [Location.parameter m.id index] := by
  have hmem : (m.parameters[index], index) ∈ m.parameters.zipIdx :=
    List.mem_zipIdx_iff_getElem?.2 (List.getElem?_eq_getElem hindex)
  refine @foldl_of_mem _ _ (fun s : State => s.read m.parameters[index] =
    OrdSet.ofList [Location.parameter m.id index]) (m.walk h summaries).bindParameter _ _
    hmem (fun s => ?_) (fun s p hp hs => ?_) ∅
  · exact (State.read_bind ..).trans (if_pos rfl)
  · refine (State.read_bind ..).trans ?_
    split
    · next hname =>
      obtain ⟨-, hlt, hown⟩ := List.mem_zipIdx hp
      simp only [Nat.zero_add, Nat.sub_zero] at hlt hown
      rw [(List.Nodup.getElem_inj_iff m.nodup).1 (hname.trans hown)]
      rfl
    · exact hs

theorem argument?_call (hindex : index < m.parameters.length) :
    (m.call h summaries).argument? (.argument index) =
      some (OrdSet.ofList [Location.parameter m.id index]) := by
  show (m.parameters.map _)[index]? = _
  rw [List.getElem?_map, List.getElem?_eq_getElem hindex, Option.map_some, read_entry hindex]

theorem carries_entry (m : Wrapper) (h : Heuristics) (summaries : String → Callee)
    (hindex : index < m.parameters.length) :
    ((m.entry h summaries).treeOf (Location.parameter m.id index).origin).root.Carries
      h.maxFieldDepth (.ofArgument index []) := by
  have htree : (m.entry h summaries).tree? (Location.parameter m.id index).origin =
      some (Walk.ownTree index) := Walk.tree?_bound.2 ⟨index, hindex, rfl, rfl⟩
  rw [State.treeOf, htree]
  exact FrameSet.has_singleton.2 rfl

/-! #### What the wrapper returns -/

variable {model : Model}

/-- What is below a parameter is read as the parameter's frame at its path. -/
theorem has_readAt_parameter {s : State} {l : Location} {path : Path}
    (horigin : l.origin = (Location.parameter m.id index).origin)
    (hpath : .wildcard ∉ l.path ++ path) (hlength : (l.path ++ path).length ≤ h.maxFieldDepth)
    (hcarries : (s.treeOf (Location.parameter m.id index).origin).root.Carries h.maxFieldDepth
      (.ofArgument index [])) :
    (s.readAt l path h.maxFieldDepth).root.frames.Has (.ofArgument index (l.path ++ path)) := by
  have hread := State.has_readAt_of_carries (horigin ▸ hcarries) hpath
  have hbelow : (Frame.ofArgument index []).below (l.path ++ path) h.maxFieldDepth =
      .ofArgument index (l.path ++ path) := by
    show Frame.ofArgument index ((l.path ++ path).normalize (h.maxFieldDepth - 0)) = _
    rw [Nat.sub_zero, Path.normalize_eq_self hpath hlength]
  rw [hbelow] at hread
  exact hread

theorem lists_of_outputs (hcallee : summaries m.callee = .modeled model) {names : List String}
    (hlists : (((m.call h summaries).outputs h model (m.entry h summaries)).getD .result
      ∅).root.Lists names f) (hlength : names.length ≤ h.maxFieldDepth) :
    (m.gathered h summaries).returned.root.Lists names f := by
  refine lists_returned (l := (m.call h summaries).fresh) ?_ ?_
  · rw [exit, hcallee, Call.run_modeled]
    exact Call.mem_read_bindResult.2 (.inl rfl)
  · rw [exit, hcallee, Call.run_modeled, Call.readAt_fresh]
    exact hlists.limit hlength

theorem length_fieldsOf (h : Heuristics) (port : Port) :
    (Call.fieldsOf h port).length ≤ h.maxFieldDepth :=
  Nat.le_trans (List.length_filterMap_le _ _) (Path.length_normalize_le _ _)

/-- A frame is returned at the fields of a port, or above them if fields are merged. -/
def ReturnsAt (m : Wrapper) (h : Heuristics) (summaries : String → Callee) (model : Model)
    (port : Port) (f : Frame) : Prop :=
  ∃ names, names <+: Call.fieldsOf h port ∧
    ((m.call h summaries).mergesResult h model (m.entry h summaries) = false →
      names = Call.fieldsOf h port) ∧
    (m.gathered h summaries).returned.root.Lists names f ∧ names.length ≤ h.maxFieldDepth

theorem returnsAt_of_spread (hcallee : summaries m.callee = .modeled model) {port : Port}
    (hlists : (((m.call h summaries).spread h model (m.entry h summaries)).getD .result
      ∅).root.Lists (Call.fieldsOf h port) f) : m.ReturnsAt h summaries model port f := by
  obtain ⟨names, hshorter, hmerges, hnames⟩ := Call.lists_outputs hlists
  have hlength : names.length ≤ h.maxFieldDepth :=
    Nat.le_trans hshorter.length_le (length_fieldsOf h port)
  exact ⟨names, hshorter, hmerges, lists_of_outputs hcallee hnames hlength, hlength⟩

/-- What the wrapped method generates is returned. -/
theorem returnsAt_generation (hcallee : summaries m.callee = .modeled model)
    {e : Port × FrameSet} (he : e ∈ model.generations.entries) (hroot : e.1.root = .result)
    (hf : FrameSet.Has e.2 f) : m.ReturnsAt h summaries model e.1 f :=
  returnsAt_of_spread hcallee (hroot ▸ Call.lists_spread_generation he hf)

/-- What the wrapped method propagates is returned as a frame of the parameter. -/
theorem returnsAt_propagation (hcallee : summaries m.callee = .modeled model)
    {p : Propagation} (hp : p ∈ model.propagations) (hinput : p.input.root = .argument index)
    (hindex : index < m.parameters.length) (houtput : p.output.root = .result) :
    m.ReturnsAt h summaries model p.output
      ⟨.argument index (p.input.path.normalize h.maxFieldDepth),
        p.transforms.take h.maxTransformLength, ∅ ∪ p.sanitizers⟩ := by
  have hread : ((m.entry h summaries).readAt (Location.parameter m.id index)
      (p.input.path.normalize h.maxFieldDepth) h.maxFieldDepth).root.frames.Has
        (.ofArgument index (p.input.path.normalize h.maxFieldDepth)) :=
    has_readAt_parameter rfl (Path.wildcard_not_mem_normalize p.input.path h.maxFieldDepth)
      (Path.length_normalize_le p.input.path h.maxFieldDepth) (carries_entry m h summaries hindex)
  refine returnsAt_of_spread hcallee (houtput ▸ Call.lists_spread_propagation hp
    (hinput ▸ argument?_call hindex)
    (State.has_frames_readAll (OrdSet.mem_ofList.2 (List.mem_singleton_self _)) hread) ?_)
  simp [Propagation.copy, Frame.ofArgument, Frame.kind?, Frame.isArgument, Frame.withSanitizers,
    Frame.withTransforms]

/-- What the wrapped method shares with its result is returned as a frame of the parameter. -/
theorem lists_returned_shared (hcallee : summaries m.callee = .modeled model)
    {p : Propagation} (hp : p ∈ model.propagations) (hinput : p.input.root = .argument index)
    (hindex : index < m.parameters.length) (haliasing : p.aliasing = true)
    (houtput : p.output.normalize h.maxFieldDepth = .result) :
    (m.gathered h summaries).returned.root.Lists []
      (.ofArgument index (p.input.path.normalize h.maxFieldDepth)) := by
  have hwildcard := Path.wildcard_not_mem_normalize p.input.path h.maxFieldDepth
  have hlength := Path.length_normalize_le p.input.path h.maxFieldDepth
  have hlocation : (Location.parameter m.id index).fieldPath
      (p.input.normalize h.maxFieldDepth).path h.maxFieldDepth =
        { Location.parameter m.id index with path := p.input.path.normalize h.maxFieldDepth } :=
    Location.fieldPath_of_path hwildcard hlength
  refine lists_returned (l := { Location.parameter m.id index with
    path := p.input.path.normalize h.maxFieldDepth }) ?_ ?_
  · rw [exit, hcallee, Call.run_modeled, Call.mem_read_bindResult]
    exact .inr (Call.mem_shared.2 ⟨p, hp, ⟨haliasing, houtput⟩, _, hinput ▸ argument?_call hindex,
      _, OrdSet.mem_ofList.2 (List.mem_singleton_self _), hlocation⟩)
  · have hne : (Location.parameter m.id index).origin ≠ (m.call h summaries).fresh.origin := nofun
    have hcarries : ((m.exit h summaries).treeOf
        (Location.parameter m.id index).origin).root.Carries h.maxFieldDepth
          (.ofArgument index []) := by
      rw [exit, hcallee, Call.run_modeled, Call.treeOf_bindResult, if_neg hne]
      exact Call.carries_written (carries_entry m h summaries hindex)
    have hread := has_readAt_parameter (l := { Location.parameter m.id index with
      path := p.input.path.normalize h.maxFieldDepth }) rfl (by rwa [List.append_nil])
      (by rwa [List.append_nil]) hcarries
    rw [List.append_nil] at hread
    exact hread

/-- What reaches an obscure method is returned as a frame of the parameter. -/
theorem lists_returned_obscure (hcallee : summaries m.callee = .obscure)
    (hindex : index < m.parameters.length) :
    (m.gathered h summaries).returned.root.Lists [] (.ofArgument index []) := by
  have hread : ((m.entry h summaries).readAt (Location.parameter m.id index) []
      h.maxFieldDepth).root.frames.Has (.ofArgument index []) :=
    has_readAt_parameter rfl nofun (Nat.zero_le _) (carries_entry m h summaries hindex)
  have hobscured : ((m.call h summaries).obscured h (m.entry h summaries)).Has
      (.ofArgument index []) := by
    refine Call.has_obscured.2 ⟨_, List.mem_of_getElem? (argument?_call hindex), ?_⟩
    exact FrameSet.has_join.2 (.inl
      (State.has_frames_readAll (OrdSet.mem_ofList.2 (List.mem_singleton_self _)) hread))
  refine lists_returned (l := (m.call h summaries).fresh) ?_ ?_
  · rw [exit, hcallee]
    exact Call.mem_read_bindResult.2 (.inl rfl)
  · rw [exit, hcallee]
    show (State.readAt (Call.bindResult ..) _ _ _).root.Lists _ _
    rw [Call.readAt_fresh]
    exact Node.Lists.limit hobscured (Nat.zero_le _)

/-! #### Calls of the wrapper -/

variable {c : Call} {s : State} {L : AliasSet} {names names' : List String} {p : Propagation}

/-- A source that is returned is handed back by calls of the wrapper. -/
theorem holds_of_lists (hf : f.isArgument = false)
    (hlists : (m.gathered h summaries).returned.root.Lists names f)
    (hlength : names.length ≤ h.maxFieldDepth) (rest : List String) :
    (c.outputs h (m.model h summaries) s).Holds .result (names ++ rest) f := by
  obtain ⟨fs, hfs, hmem⟩ := PortFrames.exists_of_has
    (MethodAnalysis.has_generations_of_lists (w := m.walk h summaries) hf hlists)
  refine Call.sub_outputs .result _ f hf ((Call.holds_spread hf).2 (.inl
    ⟨(_, fs), hfs, rfl, rest, ?_, ?_⟩))
  · show _ = TaintTree.fieldNames ((Path.normalize _ _).normalize _) ++ rest
    rw [Path.normalize_normalize, Path.normalize_map hlength, Path.fieldNames_map]
  · have hleaf : (Call.generated h c ⟨.result, names.map .field⟩ fs).root.Holds rest f :=
      Node.holds_bare.2 (FrameSet.has_addStep.2 hmem)
    exact TaintTree.holds_limit hleaf _

/-- A frame of a parameter that is returned is propagated by calls of the wrapper, from the path of
the frame or, if the input paths are thinned out, from above it. -/
theorem exists_copied {path : Path} {transforms : List KindId} {sanitizers : OrdSet KindId}
    (hlists : (m.gathered h summaries).returned.root.Lists names
      ⟨.argument index path, transforms, sanitizers⟩) (hlength : names.length ≤ h.maxFieldDepth)
    (hpath : .wildcard ∉ path) (hdepth : path.length ≤ h.maxFieldDepth)
    (hL : c.argument? (.argument index) = some L) :
    ∃ p input, input <+: path ∧
      (MethodAnalysis.thinsInputs (m.walk h summaries) (m.gathered h summaries) = false →
        input = path) ∧
      p.input.normalize h.maxFieldDepth = ⟨.argument index, input⟩ ∧ p.transforms = transforms ∧
        p.sanitizers = sanitizers ∧
      ∀ {f names'}, f.isArgument = false →
        (Call.copied h s p L).Lands (names.map .field) h.maxFieldDepth names' f →
          (c.outputs h (m.model h summaries) s).Holds .result names' f := by
  obtain ⟨p, hp, input, hinput, hshorter, hthins, houtput, htransforms, hsanitizers⟩ :=
    MethodAnalysis.exists_propagation_of_lists (w := m.walk h summaries) hlists
  -- calls normalize the input of the propagation, which is in normal form already
  have hnormal : input.normalize h.maxFieldDepth = input :=
    Path.normalize_eq_self (fun hmem => hpath (hshorter.subset hmem))
      (Nat.le_trans hshorter.length_le hdepth)
  refine ⟨p, input, hshorter, hthins, ?_, htransforms, hsanitizers, fun {f names'} hf hlands => ?_⟩
  · rw [hinput, Port.normalize, hnormal]
  · refine Call.sub_outputs .result _ f hf ((Call.holds_spread hf).2 (.inr
      ⟨p, hp, L, ?_, ?_, ?_⟩))
    · rw [hinput]
      exact hL
    · rw [houtput]
    · rw [houtput, Port.normalize, Path.normalize_map hlength]
      exact hlands

/-- Whatever the wrapped method copies, calls of the wrapper hand back, and at the same fields if
the wrapper tells the input paths apart. -/
theorem covers
    (hlists : (m.gathered h summaries).returned.root.Lists names
      ⟨.argument index (p.input.path.normalize h.maxFieldDepth),
        p.transforms.take h.maxTransformLength, ∅ ∪ p.sanitizers⟩)
    (hlength : names.length ≤ h.maxFieldDepth) (hL : c.argument? (.argument index) = some L)
    (hf : f.isArgument = false) :
    ((Call.copied h s p L).collect.Has f →
      ∃ names', (c.outputs h (m.model h summaries) s).Holds .result names' f) ∧
    (MethodAnalysis.thinsInputs (m.walk h summaries) (m.gathered h summaries) = false →
      ∀ names', (Call.copied h s p L).Lands (names.map .field) h.maxFieldDepth names' f →
        (c.outputs h (m.model h summaries) s).Holds .result names' f) := by
  obtain ⟨p', input, hshorter, hthins, hinput, htransforms, hsanitizers, hlands⟩ :=
    exists_copied (c := c) (s := s) hlists hlength (Path.wildcard_not_mem_normalize _ _)
      (Path.length_normalize_le _ _) hL
  have hcopy (own : Frame) : (p.copy h.maxTransformLength own ∅).map Prod.fst =
      (p'.copy h.maxTransformLength own ∅).map Prod.fst := Propagation.copy_congr
    (by rw [htransforms, List.take_take, Nat.min_self])
    (hsanitizers.trans (OrdSet.ext fun k => by
      simp [OrdSet.mem_union, OrdSet.not_mem_empty])).symm own
  refine ⟨fun hcollect => ?_, fun hkept names' hnames' => ?_⟩
  · have hcollect' : (Call.copied h s p' L).collect.Has f :=
      Call.has_collect_copied (by rwa [hinput]) hcopy hf hcollect
    obtain ⟨rest, hrest⟩ := TaintTree.exists_lands hcollect' (names.map .field) h.maxFieldDepth
    exact ⟨_, hlands hf hrest⟩
  · refine hlands hf (hnames'.mono (Call.sub_copied_of_copy ?_ hcopy) hf)
    rw [hinput, hthins hkept]
    rfl

/-- Neither a call of the wrapped method nor the wrapper's own flattens what is handed back, and the
wrapper tells the input paths apart. -/
structure KeepsFields (m : Wrapper) (h : Heuristics) (summaries : String → Callee) (c : Call)
    (s : State) : Prop where
  flattens : (c.redirect m.callee).flattens h (summaries m.callee) s = false
  flattensOwn : (m.call h summaries).flattens h (summaries m.callee) (m.entry h summaries) = false
  thins : MethodAnalysis.thinsInputs (m.walk h summaries) (m.gathered h summaries) = false

/-- What a call of the wrapped method hands back, a call of the wrapper does. -/
theorem exists_holds_outputs (hcallee : summaries m.callee = .modeled model)
    (harguments : c.arguments.length = m.parameters.length) (hf : f.isArgument = false)
    (hcollect : (((c.redirect m.callee).outputs h model s).getD .result ∅).collect.Has f) :
    ∃ names, ((c.redirect m.name).outputs h (m.model h summaries) s).Holds .result names f := by
  obtain ⟨names, hnames⟩ := Call.exists_holds_spread hcollect
  rcases (Call.holds_spread hf).1 hnames with
    ⟨e, he, hroot, hlands⟩ | ⟨p, hp, L, hL, hroot, hlands⟩
  · have hmem : FrameSet.Has e.2 f :=
      FrameSet.has_addStep.1 (Node.has_collect_bare.1 hlands.has_collect)
    obtain ⟨own, -, -, hlists, hlength⟩ := returnsAt_generation (h := h) hcallee he hroot hmem
    exact ⟨own ++ [], holds_of_lists hf hlists hlength []⟩
  · obtain ⟨index, hindex, hlt⟩ := Call.argument?_eq_some hL
    obtain ⟨own, -, -, hlists, hlength⟩ :=
      returnsAt_propagation (h := h) hcallee hp hindex (harguments ▸ hlt) hroot
    exact (covers hlists hlength (hindex ▸ hL) hf).1 hlands.has_collect

/-- At the same fields, if no fields are merged and the input paths are told apart. -/
theorem holds_outputs (hcallee : summaries m.callee = .modeled model)
    (harguments : c.arguments.length = m.parameters.length)
    (hkeeps : m.KeepsFields h summaries c s) (hf : f.isArgument = false)
    (hholds : ((c.redirect m.callee).outputs h model s).Holds .result names f) :
    ((c.redirect m.name).outputs h (m.model h summaries) s).Holds .result names f := by
  obtain ⟨hflattens, hflattensOwn, hthins⟩ := hkeeps
  rw [hcallee] at hflattens hflattensOwn
  have hspread : ((c.redirect m.callee).spread h model s).Holds .result names f := by
    rw [Outputs.Holds, Call.getD_outputs, TaintTree.collapse_eq_self hflattens] at hholds
    exact hholds
  rcases (Call.holds_spread hf).1 hspread with
    ⟨e, he, hroot, hlands⟩ | ⟨p, hp, L, hL, hroot, hlands⟩
  · have hmem : FrameSet.Has e.2 f :=
      FrameSet.has_addStep.1 (Node.has_collect_bare.1 hlands.has_collect)
    obtain ⟨own, -, hown, hlists, hlength⟩ :=
      returnsAt_generation (h := h) hcallee he hroot hmem
    obtain rfl := hown hflattensOwn
    obtain ⟨rest, rfl, -⟩ := hlands
    rw [Port.normalize, Path.normalize_normalize]
    exact holds_of_lists hf hlists hlength rest
  · obtain ⟨index, hindex, hlt⟩ := Call.argument?_eq_some hL
    obtain ⟨own, -, hown, hlists, hlength⟩ :=
      returnsAt_propagation (h := h) hcallee hp hindex (harguments ▸ hlt) hroot
    refine (covers hlists hlength (hindex ▸ hL) hf).2 hthins names ?_
    rw [hown hflattensOwn, Call.fieldsOf,
      Path.map_fieldNames (Path.wildcard_not_mem_normalize _ _)]
    exact hlands

/-- What a path of an argument holds is handed back if the wrapper returns that path of its
parameter. -/
theorem covers_plain {path : Path} (hpath : path.normalize h.maxFieldDepth = path)
    (hlists : (m.gathered h summaries).returned.root.Lists [] (.ofArgument index path))
    (hL : c.argument? (.argument index) = some L) :
    (∀ f, f.isArgument = false → (s.readAll L path h.maxFieldDepth).collect.Has f →
      ∃ names, (c.outputs h (m.model h summaries) s).Holds .result names f) ∧
    (MethodAnalysis.thinsInputs (m.walk h summaries) (m.gathered h summaries) = false →
      Sub (s.readAll L path h.maxFieldDepth).root
        ((c.outputs h (m.model h summaries) s).getD .result ∅).root) := by
  have hplain : (m.gathered h summaries).returned.root.Lists []
      ⟨.argument index ((Propagation.plain index path).input.path.normalize h.maxFieldDepth),
        (Propagation.plain index path).transforms.take h.maxTransformLength,
        ∅ ∪ (Propagation.plain index path).sanitizers⟩ := by
    simp only [Propagation.plain, hpath, List.take_nil]
    exact hlists
  have hcopied {names : List String} {f : Frame} (hf : f.isArgument = false)
      (hholds : (s.readAll L path h.maxFieldDepth).root.Holds names f) :
      (Call.copied h s (Propagation.plain index path) L).root.Holds names f := by
    refine Call.holds_copied.2 ⟨f, ?_, Propagation.copy_plain hf ..⟩
    show (s.readAll L (path.normalize h.maxFieldDepth) h.maxFieldDepth).root.Holds names f
    rwa [hpath]
  refine ⟨fun f hf hcollect => ?_, fun hthins names f hf hnames => ?_⟩
  · obtain ⟨names, hnames⟩ := (Node.has_collect (TaintTree.ordered _)).1 hcollect
    exact (covers hplain (Nat.zero_le _) hL hf).1 (Node.has_collect_of_holds (hcopied hf hnames))
  · refine (covers hplain (Nat.zero_le _) hL hf).2 hthins names ⟨names, ?_, ?_⟩
    · rw [List.map_nil, Path.normalize_nil]
      rfl
    · exact TaintTree.holds_limit (hcopied hf hnames) _

end Wrapper

/-- A source is read below a location that the result of a call shares with an argument, and the
argument did not hold it there before the call. -/
def Call.WroteShared (h : Heuristics) (c : Call) (callee : Callee) (s t : State) (path : Path)
    (f : Frame) : Prop :=
  match callee with
  | .modeled model =>
    ∃ p ∈ model.propagations,
      (p.aliasing = true ∧ p.output.normalize h.maxFieldDepth = Port.result) ∧
        ∃ L, c.argument? p.input.root = some L ∧ ∃ own ∈ L,
          (t.readAt (own.fieldPath (p.input.normalize h.maxFieldDepth).path h.maxFieldDepth) path
            h.maxFieldDepth).collect.Has f ∧
          ¬ (s.readAt own ((p.input.normalize h.maxFieldDepth).path ++ path)
            h.maxFieldDepth).collect.Has f
  | .obscure => False

namespace Wrapper

variable {m : Wrapper} {h : Heuristics} {summaries : String → Callee} {c : Call} {s : State}

def runDirect (m : Wrapper) (h : Heuristics) (summaries : String → Callee) (c : Call)
    (register : String) (s : State) : State :=
  ((c.redirect m.callee).run h (summaries m.callee) (some register) s).1

def runWrapped (m : Wrapper) (h : Heuristics) (summaries : String → Callee) (c : Call)
    (register : String) (s : State) : State :=
  ((c.redirect m.name).run h (.modeled (m.model h summaries)) (some register) s).1

theorem reads_runWrapped {register : String} {path : Path} (hf : f.isArgument = false)
    (hreads : (((((c.redirect m.name).outputs h (m.model h summaries) s).getD .result ∅).limit
      h.maxFieldDepth).subtree path h.maxFieldDepth).collect.Has f) :
    (m.runWrapped h summaries c register s).Reads register path h.maxFieldDepth f := by
  rw [runWrapped, Call.run_modeled]
  exact Call.reads_bindResult hf hreads

theorem reads_runWrapped_of_holds {names : List String} {register : String}
    (hf : f.isArgument = false)
    (hholds : ((c.redirect m.name).outputs h (m.model h summaries) s).Holds .result names f) :
    (m.runWrapped h summaries c register s).Reads register [] h.maxFieldDepth f :=
  reads_runWrapped hf (TaintTree.has_collect_subtree_nil hholds _)

/-- What an obscure method is handed is read somewhere below the result of the wrapper. -/
theorem reads_of_obscured (hcallee : summaries m.callee = .obscure)
    (harguments : c.arguments.length = m.parameters.length) {register : String}
    (hf : f.isArgument = false) (hobscured : ((c.redirect m.callee).obscured h s).Has f) :
    (m.runWrapped h summaries c register s).Reads register [] h.maxFieldDepth f := by
  obtain ⟨L, hL, hcollect⟩ := Call.has_obscured.1 hobscured
  obtain ⟨index, hindex⟩ := List.mem_iff_getElem?.1 hL
  have hlt : index < m.parameters.length := harguments ▸ (List.getElem?_eq_some_iff.1 hindex).1
  have hcovers := covers_plain (c := c.redirect m.name) (s := s)
    (Path.normalize_nil h.maxFieldDepth) (lists_returned_obscure hcallee hlt) hindex
  obtain ⟨names, hnames⟩ := hcovers.1 f hf hcollect
  exact reads_runWrapped_of_holds hf hnames

/-- What an argument holds where the result shares it is read below the result of the wrapper. -/
theorem reads_of_shared {model : Model} (hcallee : summaries m.callee = .modeled model)
    (harguments : c.arguments.length = m.parameters.length) {register : String} {path : Path}
    {p : Propagation} {L : AliasSet} {own : Location} (hp : p ∈ model.propagations)
    (haliasing : p.aliasing = true) (houtput : p.output.normalize h.maxFieldDepth = .result)
    (hL : c.argument? p.input.root = some L) (hown : own ∈ L) (hf : f.isArgument = false)
    (hheld : (s.readAt own ((p.input.normalize h.maxFieldDepth).path ++ path)
      h.maxFieldDepth).collect.Has f) :
    (m.runWrapped h summaries c register s).Reads register [] h.maxFieldDepth f ∧
      (MethodAnalysis.thinsInputs (m.walk h summaries) (m.gathered h summaries) = false →
        (m.runWrapped h summaries c register s).Reads register path h.maxFieldDepth f) := by
  obtain ⟨index, hindex, hlt⟩ := Call.argument?_eq_some hL
  obtain ⟨hsome, hsame⟩ := covers_plain (c := c.redirect m.name) (s := s)
    (Path.normalize_normalize p.input.path h.maxFieldDepth)
    (lists_returned_shared hcallee hp hindex (harguments ▸ hlt) haliasing houtput)
    (hindex ▸ hL)
  have hbelow := State.has_collect_readAt_append hf hheld
  refine ⟨?_, fun hthins => reads_runWrapped hf ?_⟩
  · obtain ⟨names, hnames⟩ := hsome f hf ((State.has_collect_readAll hf).2
      ⟨own, hown, Node.has_collect_of_subtree (TaintTree.ordered _) hf hbelow⟩)
    exact reads_runWrapped_of_holds hf hnames
  · have hread : Sub (s.readAt own (p.input.normalize h.maxFieldDepth).path h.maxFieldDepth).root
        (s.readAll L (p.input.normalize h.maxFieldDepth).path h.maxFieldDepth).root :=
      fun names f hf hnames => (State.holds_readAll hf).2 ⟨own, hown, hnames⟩
    exact TaintTree.has_collect_subtree
      (hread.trans ((hsame hthins).trans (TaintTree.sub_limit _ _))) hf hbelow

/-- A source that is read below the result of a call is read below the result of the wrapper: at the
same path if all fields are kept, and somewhere in any case. The one exception is what the call
itself wrote to a location that its result shares with an argument. -/
theorem run_wrapped (harguments : c.arguments.length = m.parameters.length) {register : String}
    {path : Path} (hf : f.isArgument = false)
    (hreads : (m.runDirect h summaries c register s).Reads register path h.maxFieldDepth f) :
    c.WroteShared h (summaries m.callee) s (m.runDirect h summaries c register s) path f ∨
      (m.runWrapped h summaries c register s).Reads register [] h.maxFieldDepth f ∧
      (m.KeepsFields h summaries c s →
        (m.runWrapped h summaries c register s).Reads register path h.maxFieldDepth f) := by
  obtain ⟨l, hl, hread⟩ := (State.has_collect_readAll hf).1 hreads
  -- the source is read in the location of the result, or in one that the result shares
  cases hcallee : summaries m.callee with
  | obscure =>
    rw [runDirect, hcallee, Call.run_obscure] at hl hread
    rcases Call.mem_read_bindResult.1 hl with rfl | hl
    · rw [Call.readAt_fresh] at hread
      have hobscured := Node.has_collect_bare.1
        (TaintTree.has_collect_of_subtree_limit hf hread)
      refine .inr ⟨reads_of_obscured hcallee harguments hf hobscured, fun hkeeps => ?_⟩
      have hflattens := hkeeps.flattens
      rw [hcallee] at hflattens
      cases hflattens
    · exact absurd hl (OrdSet.not_mem_empty l)
  | modeled model =>
    rw [runDirect, hcallee, Call.run_modeled] at hl
    rcases Call.mem_read_bindResult.1 hl with rfl | hl
    · refine .inr ?_
      rw [runDirect, hcallee, Call.run_modeled, Call.readAt_fresh] at hread
      refine ⟨?_, fun hkeeps => reads_runWrapped hf ?_⟩
      · obtain ⟨names, hnames⟩ := exists_holds_outputs hcallee harguments hf
          (TaintTree.has_collect_of_subtree_limit hf hread)
        exact reads_runWrapped_of_holds hf hnames
      · have hsub : Sub (((c.redirect m.callee).outputs h model s).getD .result ∅).root
            (((c.redirect m.name).outputs h (m.model h summaries) s).getD .result ∅).root :=
          fun names f hf hnames => holds_outputs hcallee harguments hkeeps hf hnames
        exact TaintTree.has_collect_subtree
          (TaintTree.sub_limit_limit hsub _) hf hread
    · obtain ⟨p, hp, ⟨haliasing, houtput⟩, L, hL, own, hown, rfl⟩ := Call.mem_shared.1 hl
      by_cases hheld : (s.readAt own ((p.input.normalize h.maxFieldDepth).path ++ path)
        h.maxFieldDepth).collect.Has f
      · exact .inr ((reads_of_shared hcallee harguments hp haliasing houtput hL hown hf hheld).imp_right
          fun hsame hkeeps => hsame hkeeps.thins)
      · exact .inl ⟨p, hp, ⟨haliasing, houtput⟩, L, hL, own, hown, hread, hheld⟩

/-! #### Examples -/

def relay : Wrapper :=
  ⟨⟨0⟩, "relay", "pick", ["x", "y"], "r", ⟨0, none⟩, ⟨1, none⟩, by decide⟩

def held : Location := .instruction ⟨1⟩ 0

def holding : State :=
  let taint : TaintTree := .leaf (.singleton (.ofKind ⟨0⟩) ∅)
  ((∅ : State).writeAt held [.field "f", .field "x"] taint false 4).writeAt held [.field "g"] taint
    false 4

def handing (others : List Location) : Call :=
  ⟨"main", ⟨⟨1⟩, 1⟩, "", [OrdSet.ofList [held], OrdSet.ofList others]⟩

def moving : Propagation :=
  ⟨⟨.argument 0, [.field "f"]⟩, ⟨.result, [.field "h"]⟩, [⟨1⟩], ∅, false, ∅⟩

def sharing : Propagation := ⟨.argument 0, .result, [], ∅, true, ∅⟩

def picks (_ : String) : Callee :=
  .modeled (((∅ : Model).addPropagation moving).addPropagation sharing)

theorem run_wrapped_picking :
    (relay.runDirect {} picks (handing []) "v" holding).Reads "v" [.field "h", .field "x"] 4
      ⟨.kind ⟨0⟩, [⟨1⟩], ∅⟩ ∧
    (relay.runWrapped {} picks (handing []) "v" holding).Reads "v" [.field "h", .field "x"] 4
      ⟨.kind ⟨0⟩, [⟨1⟩], ∅⟩ := by
  have hreads : (relay.runDirect {} picks (handing []) "v" holding).Reads "v"
      [.field "h", .field "x"] 4 ⟨.kind ⟨0⟩, [⟨1⟩], ∅⟩ := by decide
  have hkeeps : relay.KeepsFields {} picks (handing []) holding := ⟨by decide, by decide, by decide⟩
  refine ⟨hreads, ?_⟩
  rcases run_wrapped (by decide) rfl hreads with hshared | ⟨-, hsame⟩
  · -- the shared location holds the kind at other fields, and not transformed
    obtain ⟨p, hp, ⟨haliasing, -⟩, L, hL, own, hown, hread, -⟩ := hshared
    have hsharing : p = sharing := by
      rcases OrdSet.mem_insert.1 hp with rfl | hp
      · rfl
      · rcases OrdSet.mem_insert.1 hp with rfl | hp
        · cases haliasing
        · exact absurd hp (OrdSet.not_mem_empty p)
    subst hsharing
    obtain rfl : OrdSet.ofList [held] = L := Option.some.inj hL
    obtain rfl : own = held := List.mem_singleton.1 (OrdSet.mem_ofList.1 hown)
    exact absurd hread (by decide)
  · exact hsame hkeeps

/-- A kind is read at a path of the result of the call, and not of the wrapper's. -/
def Loses (h : Heuristics) (callee : Callee) (c : Call) (path : Path) (kind : KindId) : Prop :=
  (relay.runDirect h (fun _ => callee) c "v" holding).Reads "v" path h.maxFieldDepth
      (.ofKind kind) ∧
    ¬ (relay.runWrapped h (fun _ => callee) c "v" holding).Reads "v" path h.maxFieldDepth
      (.ofKind kind)

instance (h : Heuristics) (callee : Callee) (c : Call) (path : Path) (kind : KindId) :
    Decidable (Loses h callee c path kind) := inferInstanceAs (Decidable (_ ∧ _))

def copying (index : Nat) (input output : List String) : Propagation :=
  ⟨⟨.argument index, input.map .field⟩, ⟨.result, output.map .field⟩, [], ∅, false, ∅⟩

/-- Each exception is needed. -/
theorem loses_fields :
    -- nothing is known of the callee, and all that the object holds is taken to be at the root
    Loses {} .obscure (handing []) [.field "h"] ⟨0⟩ ∧
    -- the wrapper's own call merges the fields of its result
    Loses { maxOutputPathLeaves := 1 }
      (.modeled (((∅ : Model).addPropagation (copying 0 ["f"] ["a"])).addPropagation
        (copying 0 ["h"] ["b"])))
      (handing []) [.field "a", .field "x"] ⟨0⟩ ∧
    -- the wrapper's model has the whole parameter in place of two fields of it
    Loses { maxInputPathLeaves := 1 }
      (.modeled (((∅ : Model).addPropagation (copying 0 ["f"] [])).addPropagation
        (copying 0 ["h"] [])))
      (handing []) [.field "x"] ⟨0⟩ ∧
    -- the call merges all fields of its result, and the wrapper's call those of one field only
    Loses { maxOutputPathLeaves := 2 }
      (.modeled (((((∅ : Model).addPropagation (copying 0 [] ["a"])).addPropagation
        (copying 1 [] ["a", "w"])).addGeneration ⟨.result, [.field "a"]⟩ (.ofKind ⟨1⟩) ∅)
          |>.addGeneration ⟨.result, [.field "c"]⟩ (.ofKind ⟨2⟩) ∅))
      (handing []) [.field "z"] ⟨0⟩ ∧
    -- both arguments are the same object, which the call returns and writes to
    Loses {} (.modeled (((∅ : Model).addPropagation sharing).addGeneration (.argument 1)
      (.ofKind ⟨1⟩) ∅)) (handing [held]) [] ⟨1⟩ := by decide

end Wrapper

end TaintFlow
