import TaintFlow.Proofs.Hits
import TaintFlow.Proofs.Inference
import TaintFlow.Proofs.LastVisits

/-!
Contracts that an analysis upholds. A walk that obeys a contract, with callees whose contracts it
admits, observes and hands back only what the contract says (`Walk.Obeys`), and where all that can be
inferred from it is in the contract (`Contract.Infers`) the inferred model meets the contract. So if
the declared models meet the contracts of their methods (`Analysis.Upholds`), every summary does at
every moment of a run (`Analysis.moments`), every state that is reached fits, and every finding is
that of a hit with sources that the contract allows.
-/

namespace TaintFlow

/-! ### What is handed back -/

namespace MethodAnalysis

variable {V : Vocabulary} {w : Walk} {body : Body}

theorem of_mem_framesBelow {root : Root} {t : TaintTree} (ht : t.Fits V)
    {e : Port × Frame × FrameInfo} (he : e ∈ framesBelow root t) :
    e.1.root = root ∧ V.Listed e.1.path ∧ ∃ fs, V.frames fs ∧ e.2 ∈ OrdMap.entries fs := by
  obtain ⟨port, f, info⟩ := e
  obtain ⟨hroot, fs, hnode, hmem⟩ := mem_framesBelow.1 he
  obtain ⟨hpath, hfs⟩ := ht.of_mem_nodes hnode
  exact ⟨hroot, hpath, fs, hfs, hmem⟩

/-- What is handed back is at the result or at a parameter, and made of the vocabulary. -/
theorem of_mem_handedBack (hw : w.Fits V body) {e : Port × Frame × FrameInfo}
    (he : e ∈ handedBack w (w.gather body)) :
    (e.1.root = .result ∨ ∃ i < w.method.parameters.length, e.1.root = .argument i) ∧
      V.Listed e.1.path ∧ ∃ fs, V.frames fs ∧ e.2 ∈ OrdMap.entries fs := by
  rcases List.mem_append.1 he with he | he
  · obtain ⟨hroot, h⟩ := of_mem_framesBelow hw.returned he
    exact ⟨.inl hroot, h⟩
  · cases hexit : (w.gather body).exit with
    | none =>
      rw [hexit] at he
      cases he
    | some s =>
      rw [hexit] at he
      obtain ⟨index, hindex, he⟩ := List.mem_flatMap.1 he
      have htree : ((s.tree? (Location.parameter w.method.id index).origin).getD ∅).Fits V := by
        cases hown : s.tree? (Location.parameter w.method.id index).origin with
        | none => exact TaintTree.fits_empty hw.closed
        | some tree => exact ((hw.exit s hexit).tree _ tree hown).2
      obtain ⟨hroot, h⟩ := of_mem_framesBelow htree (List.mem_filter.1 he).1
      exact ⟨.inr ⟨index, List.mem_range.1 hindex, hroot⟩, h⟩

end MethodAnalysis

/-! ### Walks -/

/-- What a method starts with and what its body names is in a contract, which admits the contracts
that callees meet. -/
structure Walk.Obeys (c : Contract) (w : Walk) (body : Body) : Prop where
  closed : c.Closed w.heuristics.maxFieldDepth
  parameters : ∀ i < w.method.parameters.length,
    c.origin ⟨w.method.id, .parameter i⟩ ∧ c.frame (.ofArgument i []) ∅
  declared : (w.method.declared.getD ∅).parameterSources.Each fun port fs =>
    (∀ name, .field name ∈ port.path → c.name name) ∧ fs.Each c.frame
  origins : ∀ i ∈ body.instructions, c.origin ⟨w.method.id, .instruction i.1⟩
  fields : ∀ i ∈ body.instructions, i.2.Fits (c.vocabulary w.heuristics.maxFieldDepth)
  callees : ∀ call ∈ body.calls, ∀ model, w.summaries call.2 = .modeled model →
    ∃ d, c.Admits d w.heuristics (w.stepAt call) ∧ model.Meets d

namespace Walk.Obeys

variable {c : Contract} {w : Walk} {body : Body}

theorem fits (hw : w.Obeys c body) : w.Fits (c.vocabulary w.heuristics.maxFieldDepth) body where
  closed := hw.closed.vocabulary
  entry := entry_fits hw.closed.vocabulary (fun i hi => (hw.parameters i hi).1)
    (fun i hi => FrameSet.each_singleton (hw.parameters i hi).2)
    fun _ he => hw.declared.of_mem he
  origins := hw.origins
  fields := hw.fields
  callees call hcall := by
    cases hcallee : w.summaries call.2 with
    | obscure => trivial
    | modeled model =>
      obtain ⟨d, hadmits, hmodel⟩ := hw.callees call hcall model hcallee
      exact hmodel.fits hw.closed hadmits

theorem observed (hw : w.Obeys c body) {e : Event} (he : e ∈ w.events body) {o : Observation}
    (ho : o ∈ w.observedAt e) : o.Meets c := by
  obtain ⟨⟨call, hcall, model, hmodel, sinks, hsinks, own, hown, hport, hsink, hinfo⟩, reached,
    hreached, hparameters, hsources⟩ := hw.fits.observed he ho
  obtain ⟨d, hadmits, hmeets⟩ := hw.callees call hcall model hmodel
  obtain ⟨hdeclared, hframes⟩ := hmeets.sinks.of_mem hsinks
  constructor
  · rw [hsink, hinfo, hport]
    exact hadmits.sinks hdeclared (hframes.of_mem hown)
  · rw [hsources]
    exact (OrdMap.Each.filter hreached _).filter _
  · rw [hparameters]
    exact OrdMap.Each.filter hreached _

theorem observations (hw : w.Obeys c body) (hbody : w.method.body = some body) :
    ∀ o ∈ (MethodAnalysis.run w).observations, o.Meets c := fun _ ho =>
  MethodAnalysis.forall_mem_observations
    (fun _ _ h h' hkey => h.join hw.closed (congrArg (fun k => k.2.2) hkey) h')
    (fun body' hbody' e he o ho => by
      obtain rfl := Option.some.inj (hbody.symm.trans hbody')
      exact hw.observed he ho) ho

end Walk.Obeys

/-! ### What is inferred -/

/-- All that can be inferred from frames and observed sinks of a method is in its contract. -/
structure Contract.Infers (c : Contract) (m : Method) (h : Heuristics) (kinds : KindTable) :
    Prop where
  ports {port : Port} : (c.vocabulary h.maxFieldDepth).Listed port.path →
    (port.root = .result ∨ ∃ i < m.parameters.length, port.root = .argument i) → c.port port
  sources {f : Frame} {info : FrameInfo} : f.isArgument = false → c.frame f info → c.source f info
  sinkPorts {f : Frame} {info : FrameInfo} {index : Nat} {path : Path} : c.frame f info →
    f.label = .argument index path → c.port ⟨.argument index, path⟩
  sinks {sink f : Frame} {sinkInfo info : FrameInfo} {label : Label} : c.sink sink sinkInfo →
    c.frame f info → (label = sink.label ∨ ∃ id, label = .kind id ∧ id.index < kinds.size) →
    c.sink ⟨label, (f.transforms ++ sink.transforms).take h.maxTransformLength,
      f.sanitizers ∪ sink.sanitizers⟩ (sinkInfo.addFeatures info.features)
  propagations {p : Propagation} {index : Nat} {path : Path} {info : FrameInfo} :
    p.input.root = .argument index → p.input.path <+: path →
    c.frame ⟨.argument index path, p.transforms, p.sanitizers⟩ info → c.port p.output →
    (∀ feature ∈ p.features, (feature = FrameInfo.viaCollapse ∨ feature = FrameInfo.viaObscure) ∨
      ∃ f info, c.frame f info ∧ feature ∈ info.features) → c.propagation p

namespace Contract.Infers

variable {c : Contract} {m : Method} {h : Heuristics} {kinds : KindTable}

/-- The sinks at the parameters that reached an observed sink. -/
theorem atParameters (hinfers : c.Infers m h kinds) {o : Observation} (ho : o.Meets c)
    {label : Label} (hlabel : label = o.sink.label ∨ ∃ id, label = .kind id ∧ id.index < kinds.size)
    {e : Port × Frame × FrameInfo} (he : e ∈ o.atParameters label h.maxTransformLength) :
    c.port e.1 ∧ c.sink e.2.1 e.2.2 := by
  obtain ⟨⟨f, info⟩, hf, heq⟩ := List.mem_filterMap.1 he
  have hframe := ho.parameters.of_mem hf
  simp only at heq
  split at heq
  · cases heq
  · next index path hown =>
    cases heq
    exact ⟨hinfers.sinkPorts hframe hown, hinfers.sinks ho.sink hframe hlabel⟩

theorem infer (hinfers : c.Infers m h kinds) {summaries : String → Callee} {body : Body}
    (hw : Walk.Obeys c ⟨m, h, summaries⟩ body)
    (hobservations : ∀ o ∈ (Walk.gather ⟨m, h, summaries⟩ body).observations.values, o.Meets c) :
    (MethodAnalysis.infer ⟨m, h, summaries⟩ (Walk.gather ⟨m, h, summaries⟩ body)).Meets c := by
  have hclosed : c.Closed h.maxFieldDepth := hw.closed
  have hhanded {e : Port × Frame × FrameInfo} (he : e ∈ MethodAnalysis.handedBack
      ⟨m, h, summaries⟩ (Walk.gather ⟨m, h, summaries⟩ body)) :
      c.port e.1 ∧ c.frame e.2.1 e.2.2 := by
    obtain ⟨hroot, hpath, fs, hfs, hmem⟩ := MethodAnalysis.of_mem_handedBack hw.fits he
    exact ⟨hinfers.ports hpath hroot, OrdMap.Each.of_mem hfs hmem⟩
  constructor
  · refine Model.madeOf_ofFrames hclosed.sources fun e he => ?_
    obtain ⟨he, hf⟩ := List.mem_filter.1 he
    obtain ⟨hport, hframe⟩ := hhanded he
    exact ⟨hport, hinfers.sources (by simpa using hf) hframe⟩
  · exact PortFrames.madeOf_empty
  · refine Model.madeOf_ofFrames hclosed.sinks fun e he => ?_
    obtain ⟨o, ho, he⟩ := List.mem_flatMap.1 he
    exact hinfers.atParameters (hobservations o ho) (.inl rfl) he
  · intro p hp
    obtain ⟨-, ⟨index, path, info, hroot, hsub, hframe⟩, hfeatures⟩ :=
      MethodAnalysis.of_mem_propagations hp
    obtain ⟨hport, hframe⟩ := hhanded hframe
    refine hinfers.propagations hroot hsub hframe hport fun feature hfeature => ?_
    rcases hfeatures feature hfeature with hmark | ⟨e, he, hmem⟩
    · exact .inl (.inl hmark)
    · exact .inr ⟨e.2.1, e.2.2, (hhanded he).2, hmem⟩
  · exact fun k hk => absurd hk (OrdSet.not_mem_empty k)

end Contract.Infers

/-! ### Methods -/

/-- What a contract has to allow of a method with its declared model. -/
structure Contract.Suits (c : Contract) (m : Method) (h : Heuristics) (kinds : KindTable) :
    Prop where
  closed : c.Closed h.maxFieldDepth
  infers : c.Infers m h kinds
  declared : ∀ model, m.declared = some model → model.Meets c
  names {port : Port} : c.port port → ∀ name, .field name ∈ port.path → c.name name
  seeds {f : Frame} {info : FrameInfo} : c.source f info → c.frame f info
  parameters : ∀ i < m.parameters.length,
    c.origin ⟨m.id, .parameter i⟩ ∧ c.frame (.ofArgument i []) ∅
  instructions : ∀ body, m.body = some body → ∀ i ∈ body.instructions,
    c.origin ⟨m.id, .instruction i.1⟩ ∧ i.2.Fits (c.vocabulary h.maxFieldDepth)

theorem Contract.Suits.declared_meets {c : Contract} {m : Method} {h : Heuristics}
    {kinds : KindTable} (hc : c.Suits m h kinds) : (m.declared.getD ∅).Meets c := by
  cases hdeclared : m.declared with
  | none => exact .empty
  | some model => exact hc.declared model hdeclared

namespace Analysis

/-- Every method has a contract that suits it and admits those of its callees. -/
structure Upholds (a : Analysis) (C : MethodId → Contract) : Prop where
  suits : ∀ m ∈ a.program.methods, (C m.id).Suits m a.heuristics a.kinds
  admits : ∀ m ∈ a.program.methods, ∀ call ∈ m.calls, ∀ k ∈ a.program.methods, k.name = call.2 →
    (C m.id).Admits (C k.id) a.heuristics fun port => ⟨m.name, call.1, call.2, port.render⟩

def methodOf (p : Program) (id : MethodId) : Method :=
  (p.method? id).getD ⟨id, "", [], none, none⟩

theorem name_methodOf (p : Program) (id : MethodId) : (methodOf p id).name = p.nameOf id := by
  unfold methodOf Program.nameOf
  cases p.method? id <;> rfl

def contractsOf (p : Program) (C : Method → Contract) (id : MethodId) : Contract :=
  C (methodOf p id)

theorem contractsOf_id {p : Program} (hp : p.WellFormed) (C : Method → Contract) {m : Method}
    (hm : m ∈ p.methods) : contractsOf p C m.id = C m := by
  rw [contractsOf, methodOf, hp.method?_id hm, Option.getD_some]

def Progress.Meets (C : MethodId → Contract) (p : Progress) : Prop :=
  p.summaries.Each fun k model => model.Meets (C k)

variable {a : Analysis} {w : Course} {C : MethodId → Contract} {m : Method} {p : Progress}
  {body : Body}

theorem Progress.Meets.callee (hp : p.Meets C) {name : String} {model : Model}
    (h : a.callee p name = .modeled model) :
    ∃ k ∈ a.program.methods, k.name = name ∧ model.Meets (C k.id) := by
  unfold Analysis.callee at h
  split at h
  · next own hown =>
    cases h
    obtain ⟨k, hk, hmodel⟩ := Option.bind_eq_some_iff.1 hown
    obtain ⟨hmem, hname⟩ := Program.mem_of_lookup hk
    exact ⟨k, hmem, hname, hp k.id model hmodel⟩
  · cases h

namespace Upholds

variable (ha : a.Upholds C) (hm : m ∈ a.program.methods) (hp : p.Meets C)

include ha hm hp

theorem obeys (hbody : m.body = some body) : (a.walkAt m p).Obeys (C m.id) body where
  closed := (ha.suits m hm).closed
  parameters := (ha.suits m hm).parameters
  declared port fs hfs := by
    obtain ⟨hport, hframes⟩ := (ha.suits m hm).declared_meets.parameterSources port fs hfs
    exact ⟨(ha.suits m hm).names hport, fun f info hf => (ha.suits m hm).seeds (hframes f info hf)⟩
  origins i hi := ((ha.suits m hm).instructions body hbody i hi).1
  fields i hi := ((ha.suits m hm).instructions body hbody i hi).2
  callees call hcall model hmodel := by
    obtain ⟨k, hk, hname, hmeets⟩ := hp.callee hmodel
    have hown : call ∈ m.calls := by simpa [Method.calls, hbody] using hcall
    exact ⟨C k.id, ha.admits m hm call hown k hk hname, hmeets⟩

theorem observations : ∀ o ∈ (MethodAnalysis.run (a.walkAt m p)).observations,
    o.Meets (C m.id) := by
  cases hbody : m.body with
  | none =>
    have hrun : MethodAnalysis.run (a.walkAt m p) = ⟨∅, []⟩ := by
      rw [MethodAnalysis.run, show (a.walkAt m p).method.body = none from hbody]
    rw [hrun]
    exact nofun
  | some body => exact (ha.obeys hm hp hbody).observations hbody

theorem run_meets : (MethodAnalysis.run (a.walkAt m p)).model.Meets (C m.id) := by
  have hobservations := ha.observations hm hp
  unfold MethodAnalysis.run at hobservations ⊢
  cases hbody : m.body with
  | none =>
    simp only [show (a.walkAt m p).method.body = none from hbody]
    exact .empty
  | some body =>
    simp only [show (a.walkAt m p).method.body = some body from hbody] at hobservations ⊢
    exact (ha.suits m hm).infers.infer (ha.obeys hm hp hbody) hobservations

theorem verdict_meets : (a.verdict (a.callee p) m).model.Meets (C m.id) := by
  -- triggered sinks are added to the inferred model one by one
  refine List.foldlRecOn _ _ (ha.run_meets hm hp) fun model hmodel e he => ?_
  obtain ⟨o, ho, id, hid, he⟩ := Matcher.of_mem_triggered he
  obtain ⟨hport, hsink⟩ := (ha.suits m hm).infers.atParameters (ha.observations hm hp o ho)
    (.inr ⟨id, rfl, hid⟩) he
  exact hmodel.addSink (ha.suits m hm).closed hport hsink

/-- A visit keeps the contracts. -/
theorem visit_meets : (a.visit m p).2.Meets C := by
  have hown : (p.summaries.getD m.id ∅).Meets (C m.id) := OrdMap.Each.getD hp .empty
  unfold Progress.Meets
  rw [visit_summaries]
  split
  · exact hp
  · exact OrdMap.Each.insert hp (hown.join (ha.suits m hm).closed (ha.verdict_meets hm hp))

/-- A finding of a visit is that of an observed sink and of a hit with allowed sources. -/
theorem exists_hit {f : Finding} (hf : f ∈ (a.verdict (a.callee p) m).matched.findings) :
    ∃ o ∈ (MethodAnalysis.run (a.walkAt m p)).observations, o.Meets (C m.id) ∧
      ∃ h : Hit, h.Meets (C m.id) ∧ f = a.matcher.finding m o h := by
  have hobservations := ha.observations hm hp
  obtain ⟨o, ho, h, hh, rfl⟩ := Matcher.exists_hit (ha.suits m hm).closed hobservations hf
  exact ⟨o, ho, hobservations o ho, h, hh, rfl⟩

end Upholds

/-! ### Runs -/

theorem method_of_mem_bodies {k : Component} (hm : m ∈ a.bodies k) : m ∈ a.program.methods := by
  obtain ⟨id, -, hid⟩ := List.mem_filterMap.1 (List.mem_filter.1 hm).1
  exact Program.mem_of_method? hid

theorem method_of_mem_visits {v : Method × Progress} (hv : v ∈ a.visits w) :
    v.1 ∈ a.program.methods := by
  obtain ⟨k, -, hk⟩ := mem_levelVisits hv
  exact method_of_mem_bodies hk

theorem method_of_mem_allMissed (hm : m ∈ a.allMissed w) : m ∈ a.program.methods := by
  obtain ⟨level, -, hm⟩ := List.mem_flatMap.1 hm
  obtain ⟨k, -, hk⟩ := List.mem_flatMap.1 hm
  exact method_of_mem_bodies hk

/-- The models of a result are the summaries at some moment, the last one. -/
theorem exists_moment {name : String} {model : Model}
    (h : (a.runAlong w).models.get? name = some model) :
    ∃ p ∈ a.moments w, ∃ k, a.program.nameOf k = name ∧ p.summaries.get? k = some model := by
  have hnamed : OrdMap.Each (fun name model => ∃ k, a.program.nameOf k = name ∧
      (a.finish w).2.summaries.get? k = some model) (a.runAlong w).models := by
    rw [models_runAlong]
    refine OrdMap.each_ofList (fun _ _ _ _ h => h) fun e he => ?_
    obtain ⟨own, hown, rfl⟩ := List.mem_map.1 he
    exact ⟨own.1, rfl, OrdMap.get?_eq_some_iff.2 hown⟩
  exact ⟨(a.finish w).2, finish_mem_moments a w, hnamed name model h⟩

namespace Upholds

variable (ha : a.Upholds C)

include ha

theorem start_meets : a.start.Meets C := by
  refine OrdMap.each_ofList (fun _ _ _ _ h => h) fun e he => ?_
  obtain ⟨m, hm, hmodel⟩ := List.mem_filterMap.1 he
  obtain ⟨model, hmodel, rfl⟩ := Option.map_eq_some_iff.1 hmodel
  unfold initialSummary at hmodel
  cases hdeclared : m.declared with
  | some own =>
    rw [hdeclared, Option.some_or] at hmodel
    exact Option.some.inj hmodel ▸ (ha.suits m hm).declared own hdeclared
  | none =>
    rw [hdeclared, Option.none_or] at hmodel
    split at hmodel
    · exact Option.some.inj hmodel ▸ Model.Meets.empty
    · cases hmodel

theorem obscureModel_meets (hm : m ∈ a.program.methods) : (obscureModel m).Meets (C m.id) := by
  have hsuits := ha.suits m hm
  refine List.foldlRecOn _ _ hsuits.declared_meets fun model hmodel index hindex => ?_
  refine hmodel.addPropagation <| hsuits.infers.propagations rfl
    (List.prefix_refl []) (hsuits.parameters index (List.mem_range.1 hindex)).2
    (hsuits.infers.ports ?_ (.inl rfl)) fun feature hfeature => .inl (.inr ?_)
  · exact ⟨Vocabulary.path_nil, List.not_mem_nil, nofun⟩
  · exact List.mem_singleton.1 (OrdSet.mem_ofList.1 hfeature)

/-- All along a run, every summary meets the contract of its method. -/
theorem run_keeps_contracts (w : Course) :
    (∀ v ∈ a.visits w, v.2.Meets C) ∧ (∀ p ∈ a.moments w, p.Meets C) ∧
      (a.finish w).2.Meets C :=
  run_keeps (fun _ hv hp => ha.visit_meets (method_of_mem_visits hv) hp)
    (fun _ hm _ hp => OrdMap.Each.insert hp (ha.obscureModel_meets (method_of_mem_allMissed hm)))
    ha.start_meets

/-- What is known when a visit begins meets the contracts. -/
theorem visits_meet {v : Method × Progress} (hv : v ∈ a.visits w) :
    v.1 ∈ a.program.methods ∧ v.2.Meets C :=
  ⟨method_of_mem_visits hv, (ha.run_keeps_contracts w).1 v hv⟩

theorem moments_meet : ∀ p ∈ a.moments w, p.Meets C := (ha.run_keeps_contracts w).2.1

/-- Every state that a visit reaches is made of what the contract of its method says. -/
theorem reached_fits {v : Method × Progress} (hv : v ∈ a.visits w) (hbody : v.1.body = some body) :
    ∀ s ∈ (a.walkAt v.1 v.2).reached body (a.walkAt v.1 v.2).entry,
      s.Fits ((C v.1.id).vocabulary a.heuristics.maxFieldDepth) := by
  obtain ⟨hm, hmeets⟩ := ha.visits_meet hv
  exact (ha.obeys hm hmeets hbody).fits.reached

theorem exit_fits {v : Method × Progress} (hv : v ∈ a.visits w) (hbody : v.1.body = some body) :
    ∀ s, ((a.walkAt v.1 v.2).gather body).exit = some s →
      s.Fits ((C v.1.id).vocabulary a.heuristics.maxFieldDepth) := by
  obtain ⟨hm, hmeets⟩ := ha.visits_meet hv
  exact (ha.obeys hm hmeets hbody).fits.exit

end Upholds

end Analysis

end TaintFlow
