import TaintFlow.Call
import TaintFlow.Proofs.Sources

/-!
Calls with more to hand back. What a call brings is the union of what its generations and its
propagations bring (`Call.holds_spread`), so that it grows with the model of the callee and with the
state, as long as crowded outputs are left alone. Merging them is where growth ends: an output with
one more field can have fewer leaves after its inner fields are merged, and then stays unmerged.
Hence `Call.run_within` asks that the smaller call merges nothing; the bigger one may.
-/

namespace TaintFlow

open Node (Sub)

/-- Whether one callee is known to do no more than another. Nothing compares to an obscure callee
but an obscure callee. -/
def Callee.le : Callee → Callee → Bool
  | .modeled m, .modeled n => m.le n
  | .obscure, .obscure => true
  | .modeled _, .obscure => false
  | .obscure, .modeled _ => false

theorem Callee.le_refl (c : Callee) : c.le c = true := by
  cases c with
  | obscure => rfl
  | modeled model => exact Model.le_refl model

/-! ### Copies -/

theorem FrameSet.has_addStep {s : FrameSet} {f : Frame} {step : Step} {limit : Nat} :
    (s.addStep step limit).Has f ↔ s.Has f := has_mapValues

theorem FrameSet.has_addFeature {s : FrameSet} {f : Frame} {feature : String} :
    (s.addFeature feature).Has f ↔ s.Has f := has_mapValues

namespace Propagation

variable {p : Propagation} {limit : Nat}

/-- Which frame is copied does not depend on what is reported about it. -/
theorem copy_fst (f : Frame) (info info' : FrameInfo) :
    (p.copy limit f info).map Prod.fst = (p.copy limit f info').map Prod.fst := by
  unfold copy
  simp only
  split <;> rfl

/-- Only sources are copied to sources. -/
theorem isArgument_copy {own f : Frame} {info : FrameInfo}
    (h : (p.copy limit own info).map Prod.fst = some f) : own.isArgument = f.isArgument := by
  unfold copy at h
  simp only at h
  split at h
  · cases h
  · obtain rfl := Option.some.inj h
    show own.isArgument = Frame.isArgument (if own.isArgument then _ else own)
    split <;> rfl

end Propagation

theorem Node.Sub.mapCopies {t t' : Node} (h : Sub t t') (p : Propagation) (limit : Nat) :
    Sub (t.mapFrames (FrameSet.mapFrames (p.copy limit)))
      (t'.mapFrames (FrameSet.mapFrames (p.copy limit))) := by
  intro names f hf hholds
  obtain ⟨own, hown, hcopy⟩ := (holds_mapFrames Propagation.copy_fst).1 hholds
  have hsource : own.isArgument = false := by rw [Propagation.isArgument_copy hcopy, hf]
  exact (holds_mapFrames Propagation.copy_fst).2 ⟨own, h names own hsource hown, hcopy⟩

/-! ### Outputs -/

def Outputs.Holds (o : Outputs) (root : Root) (names : List String) (f : Frame) : Prop :=
  (o.getD root ∅).root.Holds names f

theorem Outputs.not_holds_empty {root : Root} {names : List String} {f : Frame} :
    ¬ (∅ : Outputs).Holds root names f := TaintTree.not_holds_empty

theorem Outputs.holds_write {o : Outputs} {port : Port} {tree : TaintTree} {depth : Nat}
    {root : Root} {names : List String} {f : Frame} (hf : f.isArgument = false) :
    (o.write port tree depth).Holds root names f ↔
      o.Holds root names f ∨ port.root = root ∧ tree.Lands port.path depth names f := by
  unfold Holds
  rw [write, OrdMap.getD, OrdMap.get?_update]
  by_cases h : root = port.root
  · rw [if_pos h, Option.getD_some, TaintTree.holds_write_weak hf]
    simp [h]
  · rw [if_neg h]
    simp [OrdMap.getD, Ne.symm h]

structure Call.Within (c c' : Call) : Prop where
  site : c.site = c'.site
  callee : c.callee = c'.callee
  arguments : ∀ (i : Nat) (L : AliasSet), c.arguments[i]? = some L →
    ∃ L', c'.arguments[i]? = some L' ∧ AliasSet.Within L L'

namespace Call

variable {h : Heuristics} {c c' : Call} {model model' : Model} {s t : State} {root : Root}
  {names : List String} {f : Frame} {L L' : AliasSet} {port : Port}

theorem Within.argument? (hc : c.Within c') (hL : c.argument? root = some L) :
    ∃ L', c'.argument? root = some L' ∧ AliasSet.Within L L' := by
  cases root with
  | argument index => exact hc.arguments index L hL
  | result => cases hL

def generated (h : Heuristics) (c : Call) (port : Port) (frames : FrameSet) : TaintTree :=
  .leaf (frames.addStep (c.step (port.normalize h.maxFieldDepth)) h.maxTraceLength)

def copied (h : Heuristics) (s : State) (p : Propagation) (L : AliasSet) : TaintTree :=
  (s.readAll L (p.input.normalize h.maxFieldDepth).path h.maxFieldDepth).mapFrames
    (FrameSet.mapFrames (p.copy h.maxTransformLength))

/-- All that a model hands back, before crowded outputs are merged. -/
def spread (h : Heuristics) (c : Call) (model : Model) (s : State) : Outputs :=
  let generated := model.generations.entries.foldl (fun o e => c.generate h o e.1 e.2) ∅
  model.propagations.toList.foldl (c.propagate h s) generated

/-- Whether an output is so crowded that fields of it are merged. -/
def merges (h : Heuristics) (c : Call) (model : Model) (s : State) : Bool :=
  (c.spread h model s).values.any (·.collapses h.maxOutputPathLeaves)

theorem outputs_eq (h : Heuristics) (c : Call) (model : Model) (s : State) :
    c.outputs h model s =
      (c.spread h model s).mapValues fun _ tree => tree.collapse h.maxOutputPathLeaves := rfl

/-- Where nothing is merged, all is handed back as it is. -/
theorem outputs_eq_spread (hmerges : c.merges h model s = false) :
    c.outputs h model s = c.spread h model s := by
  rw [outputs_eq]
  ext1 k
  rw [OrdMap.get?_mapValues]
  cases hk : (c.spread h model s).get? k with
  | none => rfl
  | some tree =>
    have htree : tree.collapses h.maxOutputPathLeaves = false :=
      Bool.eq_false_iff.2 (List.any_eq_false.1 hmerges tree (OrdMap.mem_values.2 ⟨k, hk⟩))
    rw [Option.map_some, TaintTree.collapse_eq_self htree]

/-- Merging only adds to what is handed back. -/
theorem sub_outputs (root : Root) :
    Sub ((c.spread h model s).getD root ∅).root ((c.outputs h model s).getD root ∅).root := by
  rw [outputs_eq, OrdMap.getD, OrdMap.getD, OrdMap.get?_mapValues]
  cases (c.spread h model s).get? root with
  | none => exact .refl _
  | some tree => exact TaintTree.sub_collapse tree _

theorem holds_generate (hf : f.isArgument = false) (o : Outputs) (port : Port)
    (frames : FrameSet) :
    (c.generate h o port frames).Holds root names f ↔
      o.Holds root names f ∨ port.root = root ∧
        (generated h c port frames).Lands (port.normalize h.maxFieldDepth).path h.maxFieldDepth
          names f :=
  Outputs.holds_write hf

theorem holds_propagate (hf : f.isArgument = false) (o : Outputs) (p : Propagation) :
    (c.propagate h s o p).Holds root names f ↔
      o.Holds root names f ∨ ∃ L, c.argument? p.input.root = some L ∧ p.output.root = root ∧
        (copied h s p L).Lands (p.output.normalize h.maxFieldDepth).path h.maxFieldDepth names f := by
  have hinput : (p.input.normalize h.maxFieldDepth).root = p.input.root := rfl
  unfold propagate
  simp only [hinput]
  cases c.argument? p.input.root with
  | none => simp
  | some L =>
    show Outputs.Holds (if (copied h s p L).isEmpty = true then o else _) root names f ↔ _
    split
    · next hempty =>
      refine (or_iff_left ?_).symm
      rintro ⟨_, hL, -, hlands⟩
      cases hL
      exact TaintTree.not_lands (Node.not_holds_of_isEmpty hempty) hlands
    · rw [Outputs.holds_write hf]
      simp [Port.normalize, copied]

/-- What is handed back comes from a generation or through a propagation. -/
theorem holds_spread (hf : f.isArgument = false) :
    (c.spread h model s).Holds root names f ↔
      (∃ e ∈ model.generations.entries, e.1.root = root ∧
        (generated h c e.1 e.2).Lands (e.1.normalize h.maxFieldDepth).path h.maxFieldDepth
          names f) ∨
      ∃ p ∈ model.propagations, ∃ L, c.argument? p.input.root = some L ∧ p.output.root = root ∧
        (copied h s p L).Lands (p.output.normalize h.maxFieldDepth).path h.maxFieldDepth names f := by
  have hgenerated := foldl_iff (P := fun o : Outputs => o.Holds root names f)
    (fun o e => holds_generate (c := c) (h := h) hf o e.1 e.2) model.generations.entries ∅
  rw [spread, foldl_iff (P := fun o : Outputs => o.Holds root names f) (holds_propagate hf),
    hgenerated, or_iff_right Outputs.not_holds_empty]
  simp only [OrdSet.mem_toList]

theorem sub_generated (c c' : Call) (port : Port) {frames frames' : FrameSet}
    (hle : FrameSet.le frames frames' = true) :
    Sub (generated h c port frames).root (generated h c' port frames').root := by
  intro names f _ hholds
  refine Node.holds_bare.2 (FrameSet.has_addStep.2 (FrameSet.has_of_le hle ?_))
  exact FrameSet.has_addStep.1 (Node.holds_bare.1 hholds)

def ReadsWithin (h : Heuristics) (c : Call) (s : State) (c' : Call) (t : State) : Prop :=
  ∀ root L, c.argument? root = some L → ∃ L', c'.argument? root = some L' ∧
    ∀ path, Sub (s.readAll L path h.maxFieldDepth).root (t.readAll L' path h.maxFieldDepth).root

theorem Within.reads (hc : c.Within c') (hs : State.Within s t) : ReadsWithin h c s c' t := by
  intro root L hL
  obtain ⟨L', hL', hwithin⟩ := hc.argument? hL
  exact ⟨L', hL', fun _ => State.sub_readAll hs.sub hwithin.subset⟩

/-- More is handed back by a bigger model that reads more. -/
theorem sub_spread (hreads : ReadsWithin h c s c' t) (hmodel : model.le model' = true)
    (root : Root) :
    Sub ((c.spread h model s).getD root ∅).root ((c'.spread h model' t).getD root ∅).root := by
  obtain ⟨hgenerations, -, -, hpropagations, -⟩ := Model.le_iff.1 hmodel
  intro names f hf hholds
  refine (holds_spread hf).2 (((holds_spread hf).1 hholds).imp ?_ ?_)
  · rintro ⟨⟨port, frames⟩, he, hroot, hlands⟩
    have hle := PortFrames.le_iff.1 hgenerations port frames (OrdMap.get?_eq_some_iff.2 he)
    unfold OrdMap.getD at hle
    cases hport : model'.generations.get? port with
    | none =>
      -- a port that is not listed by the bigger model has no frames in the smaller one
      rw [hport] at hle
      refine absurd (hlands.mono (sub_generated c c port hle) hf) (TaintTree.not_lands ?_)
      exact fun names => Node.not_holds_of_isEmpty rfl names
    | some frames' =>
      rw [hport] at hle
      exact ⟨(port, frames'), OrdMap.get?_eq_some_iff.1 hport, hroot,
        hlands.mono (sub_generated c c' port hle) hf⟩
  · rintro ⟨p, hp, L, hL, hroot, hlands⟩
    obtain ⟨L', hL', hread⟩ := hreads p.input.root L hL
    have hcopied : Sub (copied h s p L).root (copied h t p L').root :=
      (hread _).mapCopies p h.maxTransformLength
    exact ⟨p, hpropagations p hp, L', hL', hroot, hlands.mono hcopied hf⟩

/-- More is handed back also if the bigger call merges what it hands back. -/
theorem sub_outputs_of_not_merges (hreads : ReadsWithin h c s c' t)
    (hmodel : model.le model' = true) (hmerges : c.merges h model s = false) (root : Root) :
    Sub ((c.outputs h model s).getD root ∅).root ((c'.outputs h model' t).getD root ∅).root := by
  rw [outputs_eq_spread hmerges]
  exact (sub_spread hreads hmodel root).trans (sub_outputs root)

/-! ### The state after a call -/

/-- Outputs at arguments are added to what the arguments hold. -/
theorem holds_writeArguments (hf : f.isArgument = false) (o : Outputs) (origin : Origin) :
    ((o.entries.foldl (fun s e => c.writeArgument h s e.1 e.2) s).treeOf origin).root.Holds
        names f ↔
      (s.treeOf origin).root.Holds names f ∨
        ∃ root L, c.argument? root = some L ∧
          ∃ l ∈ L, l.origin = origin ∧
            (o.getD root ∅).Lands (l.path ++ []) h.maxFieldDepth names f := by
  have hstep (s : State) (e : Root × TaintTree) :
      ((c.writeArgument h s e.1 e.2).treeOf origin).root.Holds names f ↔
        (s.treeOf origin).root.Holds names f ∨ ∃ L, c.argument? e.1 = some L ∧
          ∃ l ∈ L, l.origin = origin ∧ e.2.Lands (l.path ++ []) h.maxFieldDepth names f := by
    unfold writeArgument
    cases c.argument? e.1 with
    | none => simp
    | some L => simp [State.holds_writeAll_weak hf]
  rw [foldl_iff (P := fun u : State => (u.treeOf origin).root.Holds names f) hstep]
  refine or_congr_right ⟨?_, ?_⟩
  · rintro ⟨e, he, L, hL, l, hl, ho, hlands⟩
    refine ⟨e.1, L, hL, l, hl, ho, ?_⟩
    rwa [OrdMap.getD, OrdMap.get?_eq_some_iff.2 he]
  · rintro ⟨root, L, hL, l, hl, ho, hlands⟩
    unfold OrdMap.getD at hlands
    cases hroot : o.get? root with
    | none =>
      rw [hroot] at hlands
      exact absurd hlands (TaintTree.not_lands fun _ => TaintTree.not_holds_empty)
    | some tree =>
      rw [hroot] at hlands
      exact ⟨(root, tree), OrdMap.get?_eq_some_iff.1 hroot, L, hL, l, hl, ho, hlands⟩

theorem read_writeArguments (o : List (Root × TaintTree)) (register : String) :
    (o.foldl (fun s e => c.writeArgument h s e.1 e.2) s).read register = s.read register := by
  refine List.foldlRecOn (motive := fun u => State.read u register = s.read register) o _ rfl
    fun u hu e _ => ?_
  unfold writeArgument
  split
  · rw [State.read_writeAll, hu]
  · exact hu

theorem writeArguments_within (hc : c.Within c') (hs : State.Within s t) {o o' : Outputs}
    (ho : ∀ root, Sub (o.getD root ∅).root (o'.getD root ∅).root) :
    State.Within (o.entries.foldl (fun s e => c.writeArgument h s e.1 e.2) s)
      (o'.entries.foldl (fun s e => c'.writeArgument h s e.1 e.2) t) where
  read register := by
    rw [read_writeArguments, read_writeArguments]
    exact hs.read register
  sub origin names f hf hholds := by
    rw [holds_writeArguments hf] at hholds ⊢
    refine hholds.imp (hs.sub origin names f hf) ?_
    rintro ⟨root, L, hL, l, hl, horigin, hlands⟩
    obtain ⟨L', hL', hwithin⟩ := hc.argument? hL
    exact ⟨root, L', hL', l, hwithin.subset l hl, horigin, hlands.mono (ho root) hf⟩

theorem mem_shared {l : Location} :
    l ∈ c.shared h model ↔
      ∃ p ∈ model.propagations,
        (p.aliasing = true ∧ p.output.normalize h.maxFieldDepth = Port.result) ∧
          ∃ L, c.argument? p.input.root = some L ∧
            ∃ own ∈ L, own.fieldPath (p.input.normalize h.maxFieldDepth).path h.maxFieldDepth =
              l := by
  simp only [shared, OrdSet.mem_ofList, List.mem_flatMap, OrdSet.mem_toList]
  refine exists_congr fun p => and_congr_right fun _ => ?_
  have hinput : (p.input.normalize h.maxFieldDepth).root = p.input.root := rfl
  rw [hinput]
  split
  · next haliasing =>
    rw [and_iff_right haliasing, List.mem_map]
    cases c.argument? p.input.root with
    | none => simp [OrdSet.mem_toList, OrdSet.not_mem_empty]
    | some L => simp [OrdSet.mem_toList]
  · next haliasing => simp [haliasing]

theorem shared_subset (hc : c.Within c') (hmodel : model.le model' = true) :
    ∀ l ∈ c.shared h model, l ∈ c'.shared h model' := by
  obtain ⟨-, -, -, hpropagations, -⟩ := Model.le_iff.1 hmodel
  intro l hl
  obtain ⟨p, hp, haliasing, L, hL, own, hown, hpath⟩ := mem_shared.1 hl
  obtain ⟨L', hL', hwithin⟩ := hc.argument? hL
  exact mem_shared.2
    ⟨p, hpropagations p hp, haliasing, L', hL', own, hwithin.subset own hown, hpath⟩

theorem bindResult_within (hc : c.Within c') (hs : State.Within s t)
    {returned returned' : TaintTree} (hreturned : Sub returned.root returned'.root)
    (hshared : ∀ l ∈ L, l ∈ L') (register : String) :
    State.Within (c.bindResult h s register returned L)
      (c'.bindResult h t register returned' L') := by
  unfold bindResult
  rw [← hc.site]
  refine (hs.writeAt hreturned _ true).bind ⟨fun l hl => ?_, fun hempty => ?_⟩ register
  · exact OrdSet.mem_insert.2 ((OrdSet.mem_insert.1 hl).imp_right (hshared l))
  · exact absurd hempty AliasSet.insert_ne_empty

theorem has_obscured : (c.obscured h s).Has f ↔
    ∃ L ∈ c.arguments, (s.readAll L [] h.maxFieldDepth).collect.Has f := by
  have hstep (frames : FrameSet) (L : AliasSet) :
      (frames.join (s.readAll L [] h.maxFieldDepth).collect).Has f ↔
        frames.Has f ∨ (s.readAll L [] h.maxFieldDepth).collect.Has f := FrameSet.has_join
  rw [obscured, FrameSet.has_addFeature, foldl_iff (P := fun frames : FrameSet => frames.Has f)
    hstep, or_iff_right (FrameSet.not_has_empty f)]

theorem sub_obscured (hreads : ReadsWithin h c s c' t) :
    Sub (TaintTree.leaf (c.obscured h s)).root (TaintTree.leaf (c'.obscured h t)).root := by
  intro names f hf hholds
  obtain ⟨L, hL, hmem⟩ := has_obscured.1 (Node.holds_bare.1 hholds)
  obtain ⟨i, hi⟩ := List.mem_iff_getElem?.1 hL
  obtain ⟨L', hi', hread⟩ := hreads (.argument i) L hi
  refine Node.holds_bare.2 (has_obscured.2 ⟨L', List.mem_of_getElem? hi', ?_⟩)
  exact (hread []).has_collect (TaintTree.ordered _) hf hmem

theorem read_bindResult_eq_empty_iff {returned : TaintTree} {shared : AliasSet}
    {register r : String} :
    (c.bindResult h s r returned shared).read register = ∅ ↔
      some r ≠ some register ∧ s.read register = ∅ := by
  rw [bindResult, State.read_bind]
  split
  · next hr => simp [hr, AliasSet.insert_ne_empty]
  · next hr => simp [Ne.symm hr, State.read, State.writeAt]

/-- A call binds the register of its result and no other. -/
theorem read_run_eq_empty_iff {callee : Callee} {result : Option String} {register : String} :
    (c.run h callee result s).1.read register = ∅ ↔
      result ≠ some register ∧ s.read register = ∅ := by
  cases callee with
  | obscure =>
    cases result with
    | none => simp [run]
    | some r => exact read_bindResult_eq_empty_iff
  | modeled model =>
    have hafter := read_writeArguments (c := c) (h := h) (s := s) (c.outputs h model s).entries register
    cases result with
    | none => simp [run, hafter]
    | some r => exact read_bindResult_eq_empty_iff.trans (by rw [hafter])

def mergesFor (h : Heuristics) (c : Call) (callee : Callee) (s : State) : Bool :=
  match callee with
  | .modeled model => c.merges h model s
  | .obscure => false

/-- A call to a callee that is known to do more leaves a bigger state. -/
theorem run_within {callee callee' : Callee} (hc : c.Within c') (hs : State.Within s t)
    (hcallee : callee.le callee' = true) (hmerges : c.mergesFor h callee s = false)
    (result : Option String) :
    State.Within (c.run h callee result s).1 (c'.run h callee' result t).1 := by
  cases callee with
  | obscure =>
    cases callee' with
    | modeled model' => cases hcallee
    | obscure =>
      cases result with
      | none => exact hs
      | some register => exact bindResult_within hc hs (sub_obscured (hc.reads hs)) (fun _ h => h) register
  | modeled model =>
    cases callee' with
    | obscure => cases hcallee
    | modeled model' =>
      have houtputs := sub_outputs_of_not_merges (hc.reads hs) hcallee hmerges
      have hafter := writeArguments_within (h := h) hc hs houtputs
      cases result with
      | none => exact hafter
      | some register =>
        exact bindResult_within hc hafter (houtputs .result) (shared_subset hc hcallee) register

/-! ### Observations of a call -/

def reaching (h : Heuristics) (c : Call) (s : State) (port : Port) : FrameSet :=
  ((c.argument? port.root).map fun locations =>
    (s.readAll locations port.path h.maxFieldDepth).collect).getD ∅

theorem has_reaching : (c.reaching h s port).Has f ↔ ∃ L, c.argument? port.root = some L ∧
    (s.readAll L port.path h.maxFieldDepth).collect.Has f := by
  unfold reaching
  cases c.argument? port.root with
  | none => simp [FrameSet.not_has_empty]
  | some L => simp

theorem observeAt_eq (sinks : FrameSet) :
    c.observeAt h s port sinks =
      if OrdMap.isEmpty (c.reaching h s (port.normalize h.maxFieldDepth)) then []
      else sinks.entries.map fun (sink, info) =>
        { site := c.site
          callee := c.callee
          port := port.normalize h.maxFieldDepth
          sink
          info := info.addStep (c.step (port.normalize h.maxFieldDepth)) h.maxTraceLength
          sources := OrdMap.filter (fun f _ => sink.admits f)
            (c.reaching h s (port.normalize h.maxFieldDepth)).sources
          parameters := (c.reaching h s (port.normalize h.maxFieldDepth)).arguments } := rfl

/-- A source is observed at the sinks of the ports that it reaches, if they admit it. -/
theorem observed_iff {key : Observation.Key} :
    (∃ o ∈ c.observe h model s, o.key = key ∧ o.sources.Has f) ↔
      ∃ e ∈ model.sinks.entries, e.2.Has key.2.2 ∧
        key.1 = c.site ∧ key.2.1 = e.1.normalize h.maxFieldDepth ∧
          (c.reaching h s (e.1.normalize h.maxFieldDepth)).Has f ∧ f.isArgument = false ∧
            key.2.2.admits f = true := by
  obtain ⟨site, port, sink⟩ := key
  have hsources (reached : FrameSet) (sink : Frame) :
      FrameSet.Has (OrdMap.filter (fun f _ => sink.admits f) reached.sources) f ↔
        reached.Has f ∧ f.isArgument = false ∧ sink.admits f = true := by
    rw [FrameSet.has_filter fun _ _ => rfl, FrameSet.sources, FrameSet.has_filter fun _ _ => rfl,
      Bool.not_eq_true', and_assoc]
  simp only [observe, List.mem_flatMap]
  constructor
  · rintro ⟨o, ⟨e, he, ho⟩, hkey, hmem⟩
    rw [observeAt_eq] at ho
    split at ho
    · cases ho
    · obtain ⟨own, hown, rfl⟩ := List.mem_map.1 ho
      obtain ⟨rfl, rfl, rfl⟩ : c.site = site ∧ e.1.normalize h.maxFieldDepth = port ∧
        own.1 = sink := by simpa [Observation.key] using hkey
      exact ⟨e, he, FrameSet.has_iff_mem.2 ⟨own.2, hown⟩, rfl, rfl, (hsources _ _).1 hmem⟩
  · rintro ⟨e, he, hsink, rfl, rfl, hreaching, hadmits⟩
    obtain ⟨info, hinfo⟩ := FrameSet.has_iff_mem.1 hsink
    have hsome : ¬ OrdMap.isEmpty (c.reaching h s (e.1.normalize h.maxFieldDepth)) = true :=
      fun hempty => FrameSet.not_has_of_isEmpty hempty hreaching
    have hobserved : ∃ o ∈ c.observeAt h s e.1 e.2,
        o.key = (c.site, e.1.normalize h.maxFieldDepth, sink) ∧ o.sources.Has f := by
      rw [observeAt_eq, if_neg hsome]
      exact ⟨_, List.mem_map.2 ⟨(sink, info), hinfo, rfl⟩, rfl,
        (hsources _ _).2 ⟨hreaching, hadmits⟩⟩
    obtain ⟨o, ho, hkey⟩ := hobserved
    exact ⟨o, ⟨e, he, ho⟩, hkey⟩

/-- What is observed at a call is observed at a call that reads more, if more is known about the
callee. -/
theorem observed_of_reads {callee callee' : Callee} {result : Option String} {o : Observation}
    (hreads : ReadsWithin h c s c' t) (hcallee : callee.le callee' = true)
    (ho : o ∈ (c.run h callee result s).2) (hf : o.sources.Has f) :
    ∃ o' ∈ (c'.run h callee' result t).2,
      o'.key = (c'.site, o.port, o.sink) ∧ o'.sources.Has f := by
  cases callee with
  | obscure => cases ho
  | modeled model =>
    cases callee' with
    | obscure => cases hcallee
    | modeled model' =>
      obtain ⟨-, -, hsinks, -, -⟩ := Model.le_iff.1 hcallee
      obtain ⟨⟨port, sinks⟩, he, hsink, -, hport, hreaching, hsource, hadmits⟩ :=
        observed_iff.1 ⟨o, ho, rfl, hf⟩
      have hle := PortFrames.le_iff.1 hsinks port sinks (OrdMap.get?_eq_some_iff.2 he)
      have hsink' := FrameSet.has_of_le hle hsink
      obtain ⟨L, hL, hmem⟩ := has_reaching.1 hreaching
      obtain ⟨L', hL', hread⟩ := hreads _ L hL
      refine observed_iff.2 ⟨(port, model'.sinks.getD port ∅), ?_, hsink', rfl, hport,
        has_reaching.2 ⟨L', hL', ?_⟩, hsource, hadmits⟩
      · unfold OrdMap.getD at hsink' ⊢
        cases hown : model'.sinks.get? port with
        | none =>
          rw [hown] at hsink'
          exact absurd hsink' (FrameSet.not_has_empty _)
        | some sinks' => exact OrdMap.get?_eq_some_iff.1 hown
      · exact (hread _).has_collect (TaintTree.ordered _) hsource hmem

/-- What is observed at a call is observed there in a bigger state. -/
theorem observed_mono {callee callee' : Callee} {result : Option String} {o : Observation}
    (hc : c.Within c') (hs : State.Within s t) (hcallee : callee.le callee' = true)
    (ho : o ∈ (c.run h callee result s).2) (hf : o.sources.Has f) :
    ∃ o' ∈ (c'.run h callee' result t).2, o'.key = o.key ∧ o'.sources.Has f := by
  obtain ⟨o', ho', hkey, hsource⟩ := observed_of_reads (hc.reads hs) hcallee ho hf
  have hsite : o.site = c.site := by
    cases callee with
    | obscure => cases ho
    | modeled model =>
      obtain ⟨_, -, -, hsite, -⟩ := observed_iff.1 ⟨o, ho, rfl, hf⟩
      exact hsite
  exact ⟨o', ho', by rw [hkey, Observation.key, hsite, hc.site], hsource⟩

end Call

end TaintFlow
