import TaintFlow.Proofs.Lattice
import TaintFlow.Proofs.Reached

/-!
Contracts of methods, frame by frame. A contract says which frames the states of a method hold and
which sinks are observed in it, and what its summary is made of. What it says about states is a
vocabulary (`Contract.vocabulary`); what it says about summaries is kept by joins (`Model.Meets`).
A caller admits what callees hand back (`Contract.Admits`) if their generations and sinks, with the
call put in front of their traces, are among its own frames and sinks.
-/

namespace TaintFlow

/-! ### Frames -/

/-- A join keeps one of the two traces. -/
theorem FrameInfo.trace_join (i j : FrameInfo) :
    (i.join j).trace = i.trace ∨ (i.join j).trace = j.trace := by
  unfold join
  simp only
  split <;> simp

/-- What a copy changes of a frame. -/
theorem Propagation.of_copy {p : Propagation} {limit : Nat} {f : Frame} {info : FrameInfo}
    {e : Frame × FrameInfo} (h : p.copy limit f info = some e) :
    e.1.label = f.label ∧
      e.1.transforms = f.transforms ++ p.transforms.take (limit - f.transforms.length) ∧
      e.1.sanitizers = (if f.isArgument then f.sanitizers ∪ p.sanitizers else f.sanitizers) ∧
      e.2 = info.addFeatures p.features := by
  unfold copy at h
  simp only at h
  split at h
  · cases h
  · cases h
    by_cases hf : f.isArgument <;> simp [hf, Frame.withTransforms, Frame.withSanitizers]

namespace FrameSet

variable {Q R : Frame → FrameInfo → Prop} {s t : FrameSet}

/-- What holds of a frame with either of two infos holds of it with both. -/
def Joins (Q : Frame → FrameInfo → Prop) : Prop := ∀ f i j, Q f i → Q f j → Q f (i.join j)

theorem each_singleton {f : Frame} {info : FrameInfo} (h : Q f info) :
    (singleton f info).Each Q := OrdMap.each_empty.insert h

theorem each_join (hQ : Joins Q) (hs : s.Each Q) (ht : t.Each Q) : (s.join t).Each Q :=
  hs.union ht hQ

theorem each_add (hQ : Joins Q) (hs : s.Each Q) {f : Frame} {info : FrameInfo} (h : Q f info) :
    (s.add f info).Each Q := hs.add hQ h

theorem each_mapFrames (hR : Joins R) {g : Frame → FrameInfo → Option (Frame × FrameInfo)}
    (hs : s.Each Q) (hg : ∀ f info, Q f info → ∀ e, g f info = some e → R e.1 e.2) :
    (s.mapFrames g).Each R := by
  refine OrdMap.each_ofList hR fun e he => ?_
  obtain ⟨own, hown, heq⟩ := List.mem_filterMap.1 he
  exact hg own.1 own.2 (hs.of_mem hown) e heq

theorem each_below (hQ : Joins Q) {p : Path} {depth : Nat} (hs : s.Each Q)
    (h : ∀ f info, Q f info → Q (f.below p depth) info) : (s.below p depth).Each Q :=
  each_mapFrames hQ hs fun f info hf _ heq => Option.some.inj heq ▸ h f info hf

end FrameSet

namespace PortFrames

def MadeOf (A : Port → Prop) (Q : Frame → FrameInfo → Prop) (m : PortFrames) : Prop :=
  m.Each fun port fs => A port ∧ fs.Each Q

variable {A : Port → Prop} {Q : Frame → FrameInfo → Prop} {m n : PortFrames}

theorem madeOf_empty : MadeOf A Q ∅ := OrdMap.each_empty

theorem MadeOf.join (hQ : FrameSet.Joins Q) (hm : m.MadeOf A Q) (hn : n.MadeOf A Q) :
    (m.join n).MadeOf A Q :=
  OrdMap.Each.union hm hn fun _ _ _ h h' => ⟨h.1, FrameSet.each_join hQ h.2 h'.2⟩

theorem MadeOf.add (hQ : FrameSet.Joins Q) (hm : m.MadeOf A Q) {port : Port} {f : Frame}
    {info : FrameInfo} (hport : A port) (hf : Q f info) : (m.add port f info).MadeOf A Q :=
  OrdMap.Each.update hm ⟨hport, FrameSet.each_add hQ
    (OrdMap.Each.getD hm ⟨hport, OrdMap.each_empty⟩).2 hf⟩

end PortFrames

theorem Model.madeOf_ofFrames {A : Port → Prop} {Q : Frame → FrameInfo → Prop}
    (hQ : FrameSet.Joins Q) {frames : List (Port × Frame × FrameInfo)}
    (h : ∀ e ∈ frames, A e.1 ∧ Q e.2.1 e.2.2) : (ofFrames frames).MadeOf A Q :=
  List.foldlRecOn frames _ PortFrames.madeOf_empty fun _ hm e he => hm.add hQ (h e he).1 (h e he).2

/-! ### Summaries -/

structure Contract where
  /-- The fields that may be named. -/
  name : String → Prop
  /-- Where values may come from. -/
  origin : Origin → Prop
  /-- The frames that states hold. -/
  frame : Frame → FrameInfo → Prop
  /-- The ports of the summary. -/
  port : Port → Prop
  /-- What the summary generates, and what is declared at parameters. -/
  source : Frame → FrameInfo → Prop
  /-- The sinks of the summary, and those that are observed at calls. -/
  sink : Frame → FrameInfo → Prop
  propagation : Propagation → Prop
  effect : KindId → Prop

/-- All that a summary is made of is what a contract says. -/
structure Model.Meets (c : Contract) (m : Model) : Prop where
  generations : m.generations.MadeOf c.port c.source
  parameterSources : m.parameterSources.MadeOf c.port c.source
  sinks : m.sinks.MadeOf c.port c.sink
  propagations : ∀ p ∈ m.propagations, c.propagation p
  effectSources : ∀ k ∈ m.effectSources, c.effect k

namespace Contract

def vocabulary (c : Contract) (depth : Nat) : Vocabulary where
  name := c.name
  level k := k < depth
  origin := c.origin
  frames fs := fs.Each c.frame

/-- What the operations on frames need of a contract. -/
structure Closed (c : Contract) (depth : Nat) : Prop where
  frames : FrameSet.Joins c.frame
  sources : FrameSet.Joins c.source
  sinks : FrameSet.Joins c.sink
  below {f : Frame} {info : FrameInfo} {p : Path} :
    (∀ name, .field name ∈ p → c.name name) → c.frame f info → c.frame (f.below p depth) info
  mark {f : Frame} {info : FrameInfo} {feature : String} :
    feature = FrameInfo.viaCollapse ∨ feature = FrameInfo.viaObscure → c.frame f info →
      c.frame f { info with features := info.features.insert feature }

variable {c d : Contract} {depth : Nat}

theorem Closed.vocabulary (hc : c.Closed depth) : (c.vocabulary depth).Closed depth where
  level_of_lt h := h
  level_pred h := Nat.lt_of_succ_lt h
  empty := OrdMap.each_empty
  join hs ht := FrameSet.each_join hc.frames hs ht
  below hp hs := FrameSet.each_below hc.frames hs fun _ _ hf => hc.below hp hf
  addFeature hfeature hs := OrdMap.Each.mapValues hs fun _ _ hf => hc.mark hfeature hf

/-- What callees with contract `d` hand back at a call is among what `c` says. -/
structure Admits (c d : Contract) (h : Heuristics) (stepOf : Port → Step) : Prop where
  names {port : Port} : d.port port → ∀ name, .field name ∈ port.path → c.name name
  generations {port : Port} {f : Frame} {info : FrameInfo} : d.port port → d.source f info →
    c.frame f (info.addStep (stepOf (port.normalize h.maxFieldDepth)) h.maxTraceLength)
  sinks {port : Port} {f : Frame} {info : FrameInfo} : d.port port → d.sink f info →
    c.sink f (info.addStep (stepOf (port.normalize h.maxFieldDepth)) h.maxTraceLength)
  propagations {p : Propagation} : d.propagation p →
    (∀ name, .field name ∈ p.input.path → c.name name) ∧
      ∀ name, .field name ∈ p.output.path → c.name name
  copies {p : Propagation} {f : Frame} {info : FrameInfo} {e : Frame × FrameInfo} :
    d.propagation p → c.frame f info → p.copy h.maxTransformLength f info = some e →
      c.frame e.1 e.2

end Contract

namespace Model.Meets

variable {c d : Contract} {m n : Model}

theorem empty : (∅ : Model).Meets c where
  generations := PortFrames.madeOf_empty
  parameterSources := PortFrames.madeOf_empty
  sinks := PortFrames.madeOf_empty
  propagations p hp := absurd hp (OrdSet.not_mem_empty p)
  effectSources k hk := absurd hk (OrdSet.not_mem_empty k)

theorem join {depth : Nat} (hc : c.Closed depth) (hm : m.Meets c) (hn : n.Meets c) :
    (m.join n).Meets c where
  generations := hm.generations.join hc.sources hn.generations
  parameterSources := hm.parameterSources.join hc.sources hn.parameterSources
  sinks := hm.sinks.join hc.sinks hn.sinks
  propagations p hp := (OrdSet.mem_union.1 hp).elim (hm.propagations p) (hn.propagations p)
  effectSources k hk := (OrdSet.mem_union.1 hk).elim (hm.effectSources k) (hn.effectSources k)

theorem addSink {depth : Nat} (hc : c.Closed depth) (hm : m.Meets c) {port : Port} {f : Frame}
    {info : FrameInfo} (hport : c.port port) (hf : c.sink f info) :
    (m.addSink port f info).Meets c :=
  { hm with sinks := hm.sinks.add hc.sinks hport hf }

theorem addPropagation (hm : m.Meets c) {p : Propagation} (hp : c.propagation p) :
    (m.addPropagation p).Meets c where
  generations := hm.generations
  parameterSources := hm.parameterSources
  sinks := hm.sinks
  propagations q hq := (OrdSet.mem_insert.1 hq).elim (fun heq => heq ▸ hp) (hm.propagations q)
  effectSources := hm.effectSources

/-- What meets a contract meets every weaker one. -/
theorem mono (hm : m.Meets c)
    (hport : ∀ port, c.port port → d.port port)
    (hsource : ∀ f info, c.source f info → d.source f info)
    (hsink : ∀ f info, c.sink f info → d.sink f info)
    (hpropagation : ∀ p, c.propagation p → d.propagation p)
    (heffect : ∀ k, c.effect k → d.effect k) : m.Meets d where
  generations port fs hfs := (hm.generations port fs hfs).imp (hport port)
    fun h f info hf => hsource f info (h f info hf)
  parameterSources port fs hfs := (hm.parameterSources port fs hfs).imp (hport port)
    fun h f info hf => hsource f info (h f info hf)
  sinks port fs hfs := (hm.sinks port fs hfs).imp (hport port)
    fun h f info hf => hsink f info (h f info hf)
  propagations p hp := hpropagation p (hm.propagations p hp)
  effectSources k hk := heffect k (hm.effectSources k hk)

/-- What a summary hands back is made of the vocabulary of a caller that admits its contract. -/
theorem fits {h : Heuristics} {stepOf : Port → Step} (hc : c.Closed h.maxFieldDepth)
    (hadmits : c.Admits d h stepOf) (hm : m.Meets d) :
    m.Fits (c.vocabulary h.maxFieldDepth) h stepOf where
  generations e he := by
    obtain ⟨hport, hframes⟩ := hm.generations.of_mem he
    exact ⟨hadmits.names hport, OrdMap.Each.mapValues hframes fun _ _ hf =>
      hadmits.generations hport hf⟩
  sinks e he := hadmits.names (hm.sinks.of_mem he).1
  propagations p hp := by
    have hpropagation := hm.propagations p hp
    obtain ⟨hinput, houtput⟩ := hadmits.propagations hpropagation
    exact ⟨hinput, houtput, fun fs hfs => FrameSet.each_mapFrames hc.frames hfs
      fun _ _ hf _ heq => hadmits.copies hpropagation hf heq⟩

end Model.Meets

end TaintFlow
