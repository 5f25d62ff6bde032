import TaintFlow.Proofs.Stocks
import TaintFlow.Proofs.Upheld

/-!
The passes over a recursive component end by themselves. All that an analysis makes is made of a
stock: the texts of the program and of its summaries, and the thresholds as bounds
(`Stock.upholds`). So every summary stays among finitely many models, and a pass in which a summary
grows leaves summaries that no earlier pass left. Hence some pass changes nothing, without any limit
on the number of passes (`Analysis.stabilize_without_limit`).
-/

namespace TaintFlow

open Filter

namespace Stock

variable {W : Stock} {h : Heuristics} {f : Frame} {i j : FrameInfo}

def contract (W : Stock) : Contract where
  name name := W.Makes name
  origin _ := True
  frame f info := W.Makes f ∧ W.Makes info
  port port := W.Makes port
  source f info := W.Makes f ∧ W.Makes info
  sink f info := W.Makes f ∧ W.Makes info
  propagation p := W.Makes p
  effect k := W.Makes k

/-- The thresholds are within the bound, and the marks are among the texts. -/
structure Covers (W : Stock) (h : Heuristics) (kinds : KindTable) : Prop where
  depth : h.maxFieldDepth ≤ W.2
  transforms : h.maxTransformLength ≤ W.2
  traces : h.maxTraceLength ≤ W.2
  kinds : kinds.size ≤ W.2
  viaCollapse : W.Makes FrameInfo.viaCollapse
  viaObscure : W.Makes FrameInfo.viaObscure

theorem eventually_covers (h : Heuristics) (kinds : KindTable) :
    ∀ᶠ W : Stock in atTop, W.Covers h kinds := by
  filter_upwards [Stocked.eventually_bound h.maxFieldDepth,
    Stocked.eventually_bound h.maxTransformLength, Stocked.eventually_bound h.maxTraceLength,
    Stocked.eventually_bound kinds.size, Stocked.eventually FrameInfo.viaCollapse,
    Stocked.eventually FrameInfo.viaObscure] with W hdepth htransforms htraces hkinds hc ho
  exact ⟨hdepth, htransforms, htraces, hkinds, hc, ho⟩

theorem meets_contract {model : Model} : model.Meets W.contract ↔ W.Makes model := by
  constructor
  · exact fun hm => ⟨hm.generations, hm.parameterSources, hm.sinks,
      makes_set.2 hm.propagations, makes_set.2 hm.effectSources⟩
  · exact fun ⟨hgenerations, hsources, hsinks, hpropagations, heffects⟩ =>
      ⟨hgenerations, hsources, hsinks, makes_set.1 hpropagations, makes_set.1 heffects⟩

/-! ### Operations on what is made of a stock -/

theorem makes_join (hi : W.Makes i) (hj : W.Makes j) : W.Makes (i.join j) := by
  refine ⟨makes_union hi.1 hj.1, ?_⟩
  show W.Makes (i.join j).trace
  rcases FrameInfo.trace_join i j with h | h
  · exact h ▸ hi.2
  · exact h ▸ hj.2

theorem makes_addFeatures {features : OrdSet String} (hi : W.Makes i) (h : W.Makes features) :
    W.Makes (i.addFeatures features) := ⟨makes_union hi.1 h, hi.2⟩

theorem makes_addStep {step : Step} {limit : Nat} (hlimit : limit ≤ W.2) (hi : W.Makes i)
    (hstep : W.Makes step) : W.Makes (i.addStep step limit) := by
  unfold FrameInfo.addStep
  split
  · next hlt =>
    refine ⟨hi.1, ?_, fun s hs => ?_⟩
    · show i.trace.length + 1 ≤ W.2
      omega
    · rcases List.mem_cons.1 hs with rfl | hs
      · exact hstep
      · exact hi.2.2 s hs
  · exact hi

/-- The port that a step shows is made of what the declared port is made of. -/
theorem makes_shown {port : Port} (hport : W.Makes port) (depth : Nat) :
    W.Makes (port.normalize depth) :=
  ⟨hport.1, (Path.normalize_isPrefix port.path depth).length_le.trans hport.2.1,
    fun s hs => hport.2.2 s (Path.mem_of_mem_normalize hs)⟩

/-- A path of listed fields is made of the stock. -/
theorem makes_fields {p : Path} (hnames : ∀ name, .field name ∈ p → W.Makes name)
    (hfields : .wildcard ∉ p) (hlength : p.length ≤ W.2) : W.Makes p := by
  refine ⟨hlength, fun s hs => ?_⟩
  cases s with
  | field name => exact hnames name hs
  | wildcard => exact absurd hs hfields

theorem names_of_makes {p : Path} (hp : W.Makes p) : ∀ name, .field name ∈ p → W.Makes name :=
  fun _ hname => hp.2 _ hname

theorem makes_below {p : Path} {depth : Nat} (hdepth : depth ≤ W.2)
    (hp : ∀ name, .field name ∈ p → W.Makes name) (hf : W.Makes f) : W.Makes (f.below p depth) := by
  obtain ⟨label, transforms, sanitizers⟩ := f
  cases label with
  | kind id => exact hf
  | argument index own =>
    obtain ⟨⟨hindex, hown⟩, hrest⟩ := hf
    have hlength := Path.length_normalize_le p (depth - own.length)
    have hadded : W.Makes (p.normalize (depth - own.length)) :=
      makes_fields (fun name hname => hp name (Path.mem_of_mem_normalize hname))
        (Path.wildcard_not_mem_normalize p _) (by omega)
    refine ⟨⟨hindex, ?_, fun s hs => ?_⟩, hrest⟩
    · show (own ++ p.normalize (depth - own.length)).length ≤ W.2
      have : own.length ≤ W.2 := hown.1
      rw [List.length_append]
      omega
    · exact (List.mem_append.1 hs).elim (hown.2 s) (hadded.2 s)

theorem makes_copy {p : Propagation} {limit : Nat} {e : Frame × FrameInfo} (hlimit : limit ≤ W.2)
    (hp : W.Makes p) (hf : W.Makes f) (hi : W.Makes i) (he : p.copy limit f i = some e) :
    W.Makes e.1 ∧ W.Makes e.2 := by
  obtain ⟨-, -, hadded, hdropped, -, hfeatures⟩ := hp
  obtain ⟨hlabel, htransforms, hsanitizers⟩ := hf
  obtain ⟨hlabel', htransforms', hsanitizers', hinfo'⟩ := Propagation.of_copy he
  refine ⟨⟨?_, ?_, ?_⟩, hinfo' ▸ makes_addFeatures hi hfeatures⟩
  · show W.Makes e.1.label
    exact hlabel' ▸ hlabel
  · show W.Makes e.1.transforms
    rw [htransforms']
    refine ⟨?_, fun k hk => ?_⟩
    · have : f.transforms.length ≤ W.2 := htransforms.1
      rw [List.length_append, List.length_take]
      omega
    · exact (List.mem_append.1 hk).elim (htransforms.2 k) fun hk =>
        hadded.2 k (List.mem_of_mem_take hk)
  · show W.Makes e.1.sanitizers
    rw [hsanitizers']
    split
    · exact makes_union hsanitizers hdropped
    · exact hsanitizers

/-- The frame that a parameter starts with. -/
theorem makes_ofArgument {index : Nat} (h : index ≤ W.2) : W.Makes (Frame.ofArgument index []) :=
  ⟨⟨h, Nat.zero_le _, nofun⟩, ⟨Nat.zero_le _, nofun⟩, makes_empty⟩

/-! ### Contracts -/

theorem contract_closed {kinds : KindTable} (hW : W.Covers h kinds) :
    W.contract.Closed h.maxFieldDepth where
  frames _ _ _ hi hj := ⟨hi.1, makes_join hi.2 hj.2⟩
  sources _ _ _ hi hj := ⟨hi.1, makes_join hi.2 hj.2⟩
  sinks _ _ _ hi hj := ⟨hi.1, makes_join hi.2 hj.2⟩
  below hp hf := ⟨makes_below hW.depth hp hf.1, hf.2⟩
  mark hfeature hf := by
    refine ⟨hf.1, makes_insert hf.2.1 ?_, hf.2.2⟩
    rcases hfeature with rfl | rfl
    · exact hW.viaCollapse
    · exact hW.viaObscure

theorem contract_infers {kinds : KindTable} (hW : W.Covers h kinds) {m : Method}
    (hm : m.parameters.length ≤ W.2) : W.contract.Infers m h kinds where
  ports {port} hpath hroot := by
    have hlength : port.path.length ≤ h.maxFieldDepth := le_of_forall_lt hpath.level
    refine ⟨?_, makes_fields hpath.path hpath.fields (hlength.trans hW.depth)⟩
    · obtain ⟨root, path⟩ := port
      rcases hroot with rfl | ⟨i, hi, rfl⟩
      · trivial
      · exact Nat.le_trans (Nat.le_of_lt hi) hm
  sources _ hf := hf
  sinkPorts {f info index path} hf hlabel := by
    have hmade : W.Makes f.label := hf.1.1
    rw [hlabel] at hmade
    exact hmade
  sinks {sink f sinkInfo info label} hsink hf hlabel := by
    obtain ⟨⟨-, htransforms, hsanitizers⟩, hfeatures, -⟩ := hf
    obtain ⟨⟨hsinkLabel, hsinkTransforms, hsinkSanitizers⟩, hsinkInfo⟩ := hsink
    refine ⟨⟨?_, ⟨?_, fun k hk => ?_⟩, makes_union hsanitizers hsinkSanitizers⟩,
      makes_addFeatures hsinkInfo hfeatures⟩
    · rcases hlabel with rfl | ⟨id, rfl, hid⟩
      · exact hsinkLabel
      · exact Nat.le_trans (Nat.le_of_lt hid) hW.kinds
    · exact (List.length_take_le _ _).trans hW.transforms
    · exact (List.mem_append.1 (List.mem_of_mem_take hk)).elim (htransforms.2 k)
        (hsinkTransforms.2 k)
  propagations {p index path info} hroot hsub hf hport hfeatures := by
    obtain ⟨⟨⟨hindex, hpath⟩, htransforms, hsanitizers⟩, -⟩ := hf
    refine ⟨⟨?_, hsub.length_le.trans hpath.1, fun s hs => hpath.2 s (hsub.subset hs)⟩,
      hport, htransforms, hsanitizers, trivial, makes_set.2 fun feature hfeature => ?_⟩
    · show W.Makes p.input.root
      rw [hroot]
      exact hindex
    · rcases hfeatures feature hfeature with (rfl | rfl) | ⟨f, info, hf, hmem⟩
      · exact hW.viaCollapse
      · exact hW.viaObscure
      · exact makes_set.1 hf.2.1 feature hmem

theorem contract_admits {kinds : KindTable} (hW : W.Covers h kinds) {name : String}
    {call : Nat × String} (hname : W.Makes name) (hcall : W.Makes call) :
    W.contract.Admits W.contract h fun port => ⟨name, call.1, call.2, port.render⟩ where
  names hport := names_of_makes hport.2
  generations hport hf := ⟨hf.1, makes_addStep hW.traces hf.2
    ⟨⟨hname, hcall⟩, .inr ⟨_, makes_shown hport _, rfl⟩⟩⟩
  sinks hport hf := ⟨hf.1, makes_addStep hW.traces hf.2
    ⟨⟨hname, hcall⟩, .inr ⟨_, makes_shown hport _, rfl⟩⟩⟩
  propagations hp := ⟨names_of_makes hp.1.2, names_of_makes hp.2.1.2⟩
  copies hp hf he := makes_copy hW.transforms hp hf.1 hf.2 he

structure CoversMethod (W : Stock) (m : Method) : Prop where
  name : W.Makes m.name
  parameters : m.parameters.length ≤ W.2
  declared : ∀ model ∈ m.declared.toList, W.Makes model
  calls : ∀ call ∈ m.calls, W.Makes call
  fields : ∀ body ∈ m.body.toList, ∀ i ∈ body.instructions, i.2.Fits (W.contract.vocabulary 0)

/-- The fields that an instruction names are in every vocabulary that is large enough. -/
theorem eventually_instruction {V : Stock → Vocabulary}
    (hV : ∀ (W : Stock) (name : String), W.Makes name → (V W).name name) (i : Instruction) :
    ∀ᶠ W : Stock in atTop, i.Fits (V W) := by
  have hfield (field : Segment) : ∀ᶠ W : Stock in atTop, (V W).path [field] :=
    (Stocked.eventually field).mono fun W hW name hname => by
      obtain rfl := List.mem_singleton.1 hname
      exact hV W name hW
  cases i with
  | fieldRead dest base field => exact hfield field
  | fieldWrite base field src => exact hfield field
  | fresh dest => exact .of_forall fun _ => trivial
  | move dest src => exact .of_forall fun _ => trivial
  | call callee args result => exact .of_forall fun _ => trivial

theorem eventually_coversMethod (m : Method) : ∀ᶠ W : Stock in atTop, W.CoversMethod m := by
  have hdeclared := Stocked.eventually_all m.declared.toList fun model _ =>
    Stocked.eventually model
  have hcalls := Stocked.eventually_all m.calls fun call _ => Stocked.eventually call
  have hfields := Stocked.eventually_all m.body.toList fun body _ =>
    Stocked.eventually_all body.instructions fun i _ =>
      eventually_instruction (V := fun W => W.contract.vocabulary 0) (fun _ _ h => h) i.2
  filter_upwards [Stocked.eventually m.name, Stocked.eventually_bound m.parameters.length,
    hdeclared, hcalls, hfields] with W hname hparameters hdeclared hcalls hfields
  exact ⟨hname, hparameters, hdeclared, hcalls, hfields⟩

/-- An analysis stays within every stock that has its texts and thresholds. -/
theorem upholds {a : Analysis} (hW : W.Covers a.heuristics a.kinds)
    (hmethods : ∀ m ∈ a.program.methods, W.CoversMethod m) : a.Upholds fun _ => W.contract where
  suits m hm :=
    { closed := contract_closed hW
      infers := contract_infers hW (hmethods m hm).parameters
      declared := fun model hmodel =>
        meets_contract.2 ((hmethods m hm).declared model (Option.mem_toList.2 hmodel))
      names := fun hport => names_of_makes hport.2
      seeds := id
      parameters := fun _ hi =>
        ⟨trivial, makes_ofArgument (Nat.le_trans (Nat.le_of_lt hi) (hmethods m hm).parameters),
          makes_empty, Nat.zero_le _, nofun⟩
      instructions := fun body hbody i hi =>
        ⟨trivial, (hmethods m hm).fields body (Option.mem_toList.2 hbody) i hi⟩ }
  admits m hm call hcall _ _ _ :=
    contract_admits hW (hmethods m hm).name ((hmethods m hm).calls call hcall)

end Stock

/-! ### Passes without a limit -/

namespace Analysis

variable {a : Analysis} {ms : List Method} {p : Progress}

def afterPasses (a : Analysis) (ms : List Method) (p : Progress) (n : Nat) : Progress :=
  (fun p => (a.pass ms p).2)^[n] p

theorem afterPasses_succ (n : Nat) :
    a.afterPasses ms p (n + 1) = (a.pass ms (a.afterPasses ms p n)).2 :=
  Function.iterate_succ_apply' _ n p

/-- A pass grows if one of its visits does. -/
theorem pass_grown (ms : List Method) (p : Progress) :
    (a.pass ms p).1 = (a.passVisits ms p).any fun v => (a.visit v.1 v.2).1 := by
  induction ms generalizing p with
  | nil => rfl
  | cons m ms ih => exact congrArg ((a.visit m p).1 || ·) (ih (a.visit m p).2)

/-- A visit that grows leaves more in the summary of its method than there was at first. -/
theorem Leads.grown {p' : Progress} {vs : List (Method × Progress)} (h : a.Leads p vs p')
    {v : Method × Progress} (hv : v ∈ vs) (hgrown : (a.visit v.1 v.2).1 = true) :
    (p'.summaries.getD v.1.id ∅).le (p.summaries.getD v.1.id ∅) = false := by
  have hbefore : (p.summaries.getD v.1.id ∅).le (v.2.summaries.getD v.1.id ∅) = true :=
    h.before (R := fun q => (p.summaries.getD v.1.id ∅).le (q.summaries.getD v.1.id ∅) = true)
      (fun u _ hle => Model.le_trans hle (summary_le_visit u.1 u.2 v.1.id)) (Model.le_refl _) v hv
  obtain ⟨vs, hafter⟩ := h.after hv
  have hverdict : (a.verdict (a.callee v.2) v.1).model.le (p'.summaries.getD v.1.id ∅) = true := by
    refine Model.le_trans ?_ (hafter.summaries_le v.1.id)
    rw [visit_getD_summary]
    exact Model.le_join_right _ _
  -- were there no more, the visit would have brought nothing new
  refine Bool.eq_false_iff.2 fun hle => ?_
  have hnothing := Model.le_trans hverdict (Model.le_trans hle hbefore)
  rw [visit_grown, hnothing] at hgrown
  cases hgrown

/-- A pass that grows leaves more than there was in one of the summaries. -/
theorem exists_grown (h : (a.pass ms p).1 = true) :
    ∃ m ∈ ms, ((a.pass ms p).2.summaries.getD m.id ∅).le (p.summaries.getD m.id ∅) = false := by
  rw [pass_grown] at h
  obtain ⟨v, hv, hgrown⟩ := List.any_eq_true.1 h
  exact ⟨v.1, mem_passVisits hv, (pass_leads ms p).grown hv hgrown⟩

theorem afterPasses_le (ms : List Method) (p : Progress) (k : MethodId) {i j : Nat} (h : i ≤ j) :
    ((a.afterPasses ms p i).summaries.getD k ∅).le
      ((a.afterPasses ms p j).summaries.getD k ∅) = true := by
  induction j, h using Nat.le_induction with
  | base => exact Model.le_refl _
  | succ j _ ih =>
    rw [afterPasses_succ]
    exact Model.le_trans ih ((pass_leads ms _).summaries_le k)

def summariesOf (ms : List Method) (p : Progress) : List Model :=
  ms.map fun m => p.summaries.getD m.id ∅

/-- A pass that grows leaves summaries that no pass before it left. -/
theorem summariesOf_ne {i j : Nat} (h : (a.pass ms (a.afterPasses ms p i)).1 = true)
    (hlt : i < j) :
    summariesOf ms (a.afterPasses ms p i) ≠ summariesOf ms (a.afterPasses ms p j) := by
  intro heq
  obtain ⟨m, hm, hgrown⟩ := exists_grown h
  -- pass `i` left more in the summary of `m`, and no later pass takes it away
  have hsame := List.map_inj_left.1 heq m hm
  have hle := afterPasses_le (a := a) ms p m.id (Nat.succ_le_of_lt hlt)
  rw [afterPasses_succ, ← hsame, hgrown] at hle
  cases hle

/-- Passes keep the contracts. -/
theorem Upholds.afterPasses_meet {C : MethodId → Contract} (ha : a.Upholds C)
    (hms : ∀ m ∈ ms, m ∈ a.program.methods) (hp : p.Meets C) (n : Nat) :
    (a.afterPasses ms p n).Meets C := by
  induction n with
  | zero => exact hp
  | succ n ih =>
    rw [afterPasses_succ]
    exact (pass_leads ms _).keeps
      (fun v hv hmeets => ha.visit_meets (hms v.1 (mem_passVisits hv)) hmeets) ih

/-- Methods, and summaries to start from, are made of a stock that an analysis stays within. -/
theorem exists_stock (a : Analysis) (ms : List Method) (p : Progress) :
    ∃ W : Stock, (a.Upholds fun _ => W.contract) ∧ (p.Meets fun _ => W.contract) ∧
      ms.length ≤ W.2 := by
  have hmethods := Stocked.eventually_all a.program.methods fun m _ =>
    Stock.eventually_coversMethod m
  obtain ⟨W, hcovers, hmethods, hsummaries, hlength⟩ :=
    ((Stock.eventually_covers a.heuristics a.kinds).and <| hmethods.and <|
      (Stocked.eventually p.summaries.values).and (Stocked.eventually_bound ms.length)).exists
  refine ⟨W, Stock.upholds hcovers hmethods, fun k model hmodel => ?_, hlength⟩
  exact Stock.meets_contract.2 (hsummaries.2 model (OrdMap.mem_values.2 ⟨k, hmodel⟩))

/-- Some pass over methods of the program does not grow. -/
theorem exists_pass_without_growth (hms : ∀ m ∈ ms, m ∈ a.program.methods) :
    ∃ n, (a.pass ms (a.afterPasses ms p n)).1 = false := by
  obtain ⟨W, ha, hp, hlength⟩ := exists_stock a ms p
  have hmakes (n : Nat) : W.Makes (summariesOf ms (a.afterPasses ms p n)) := by
    refine ⟨by simpa [summariesOf] using hlength, fun model hmodel => ?_⟩
    obtain ⟨m, -, rfl⟩ := List.mem_map.1 hmodel
    exact Stock.meets_contract.1 (OrdMap.Each.getD (ha.afterPasses_meet hms hp n) .empty)
  obtain ⟨n, hn⟩ := Stocked.exists_not W hmakes fun _ _ => summariesOf_ne
  exact ⟨n, Bool.not_eq_true _ ▸ hn⟩

theorem stabilize_of_passes {n further : Nat}
    (hgrown : ∀ i < n, (a.pass ms (a.afterPasses ms p i)).1 = true)
    (hlast : (a.pass ms (a.afterPasses ms p n)).1 = false) (hfurther : n ≤ further) :
    a.stabilize ms further p = (false, a.afterPasses ms p (n + 1)) := by
  induction n generalizing p further with
  | zero =>
    have hpass : a.pass ms p = (false, (a.pass ms p).2) := Prod.ext hlast rfl
    cases further with
    | zero => exact hpass
    | succ further =>
      rw [stabilize, hpass]
      rfl
  | succ n ih =>
    obtain ⟨further, rfl⟩ := Nat.exists_eq_add_of_le' hfurther
    have hpass : a.pass ms p = (true, (a.pass ms p).2) := Prod.ext (hgrown 0 n.succ_pos) rfl
    rw [← Nat.add_assoc, stabilize, hpass]
    exact ih (fun i hi => hgrown (i + 1) (Nat.succ_lt_succ hi)) hlast (Nat.le_add_left n further)

/-- Without a limit on their number the passes over a component come to a pass in which no visit
makes a summary grow, from wherever they start. -/
theorem stabilize_without_limit (a : Analysis) (c : Component) (p : Progress) :
    ∃ n, (∀ i < n, (a.pass (a.bodies c) (a.afterPasses (a.bodies c) p i)).1 = true) ∧
      (∀ v ∈ a.passVisits (a.bodies c) (a.afterPasses (a.bodies c) p n),
        (a.visit v.1 v.2).1 = false) ∧
      ∀ further ≥ n, a.stabilize (a.bodies c) further p =
        (false, a.afterPasses (a.bodies c) p (n + 1)) := by
  have hends : ∃ n, (a.pass (a.bodies c) (a.afterPasses (a.bodies c) p n)).1 = false :=
    exists_pass_without_growth fun _ hm => method_of_mem_bodies hm
  obtain ⟨n, hlast, hfirst⟩ := Nat.findX hends
  have hgrown : ∀ i < n, (a.pass (a.bodies c) (a.afterPasses (a.bodies c) p i)).1 = true :=
    fun i hi => Bool.not_eq_false _ ▸ hfirst i hi
  refine ⟨n, hgrown, ?_, fun further hfurther => stabilize_of_passes hgrown hlast hfurther⟩
  rw [pass_grown, List.any_eq_false] at hlast
  exact fun v hv => Bool.eq_false_iff.2 (hlast v hv)

end Analysis

end TaintFlow
