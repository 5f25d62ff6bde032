import TaintFlow.Proofs.Declared
import TaintFlow.Proofs.Upheld

/-!
Bounds of what an analysis makes. The values that a method holds come from its own parameters and
instructions, no taint tree is deeper than fields are told apart, labels name parameters of the
method and paths of fields, and chains of transforms are cut (`State.Bounded`, `Analysis.bounds`).
One contract says so of all methods, so it holds of every state and summary of a run, and of all
that is observed and found (`Analysis.run_bounded`). What is looked up in the memory of a method and
in the table of kinds is there.
-/

namespace TaintFlow

/-! ### Bounded frames -/

def Method.Owns (m : Method) (o : Origin) : Prop :=
  o.method = m.id ∧
    match o.site with
    | .parameter index => index < m.parameters.length
    | .instruction position => ∃ body, m.body = some body ∧ ∃ i ∈ body.instructions, i.1 = position

def Label.Bounded (parameters : Nat) (h : Heuristics) (kinds : KindTable) : Label → Prop
  | .kind id => id.index < kinds.size
  | .argument index path =>
    index < parameters ∧ .wildcard ∉ path ∧ path.length ≤ h.maxFieldDepth

namespace Frame

structure Bounded (parameters : Nat) (h : Heuristics) (kinds : KindTable) (f : Frame) : Prop where
  label : f.label.Bounded parameters h kinds
  transforms : f.transforms.length ≤ h.maxTransformLength
  transformKinds : ∀ k ∈ f.transforms, k.index < kinds.size
  sanitizerKinds : ∀ k ∈ f.sanitizers, k.index < kinds.size

def Plain (f : Frame) : Prop := ∀ id, f.label = .kind id → f.sanitizers = ∅

variable {n n' : Nat} {h : Heuristics} {kinds : KindTable} {f : Frame}

theorem Bounded.kind {id : KindId} (hf : f.Bounded n h kinds) (hid : f.label = .kind id) :
    id.index < kinds.size := by
  have hlabel := hf.label
  rwa [hid] at hlabel

/-- The bounds of a frame of a kind do not depend on the method. -/
theorem Bounded.of_kind (hf : f.Bounded n h kinds) (hkind : f.isArgument = false) :
    f.Bounded n' h kinds := by
  obtain ⟨label, transforms, sanitizers⟩ := f
  cases label with
  | kind id => exact ⟨hf.label, hf.transforms, hf.transformKinds, hf.sanitizerKinds⟩
  | argument index path => cases hkind

/-- A frame that has not been changed yet. -/
theorem bounded_of_label {label : Label} (hlabel : label.Bounded n h kinds) :
    Bounded n h kinds ⟨label, [], ∅⟩ :=
  ⟨hlabel, Nat.zero_le _, nofun, fun k hk => absurd hk (OrdSet.not_mem_empty k)⟩

/-- A sink that a parameter reaches, under its own kind or another one of the table. -/
theorem Bounded.atParameter {sink : Frame} {label : Label} (hsink : sink.Bounded n h kinds)
    (hf : f.Bounded n h kinds)
    (hlabel : label = sink.label ∨ ∃ id, label = .kind id ∧ id.index < kinds.size) :
    (⟨label, (f.transforms ++ sink.transforms).take h.maxTransformLength,
      f.sanitizers ∪ sink.sanitizers⟩ : Frame).Bounded n h kinds where
  label := by
    rcases hlabel with rfl | ⟨id, rfl, hid⟩
    · exact hsink.label
    · exact hid
  transforms := List.length_take_le _ _
  transformKinds k hk := (List.mem_append.1 (List.mem_of_mem_take hk)).elim (hf.transformKinds k)
    (hsink.transformKinds k)
  sanitizerKinds k hk :=
    (OrdSet.mem_union.1 hk).elim (hf.sanitizerKinds k) (hsink.sanitizerKinds k)

theorem Bounded.below (hf : f.Bounded n h kinds) (p : Path) :
    (f.below p h.maxFieldDepth).Bounded n h kinds := by
  obtain ⟨label, transforms, sanitizers⟩ := f
  cases label with
  | kind id => exact hf
  | argument index own =>
    obtain ⟨hindex, hfields, hdepth⟩ := hf.label
    have hadded := Path.length_normalize_le p (h.maxFieldDepth - own.length)
    refine ⟨⟨hindex, ?_, ?_⟩, hf.transforms, hf.transformKinds, hf.sanitizerKinds⟩
    · simp [hfields, Path.wildcard_not_mem_normalize]
    · rw [List.length_append]
      omega

theorem Plain.below (hf : f.Plain) (p : Path) (depth : Nat) : (f.below p depth).Plain := by
  unfold Frame.below
  split
  · exact hf
  · exact nofun

variable {p : Propagation} {info : FrameInfo} {e : Frame × FrameInfo}

theorem Bounded.copy (htransforms : ∀ k ∈ p.transforms, k.index < kinds.size)
    (hsanitizers : ∀ k ∈ p.sanitizers, k.index < kinds.size) (hf : f.Bounded n h kinds)
    (he : p.copy h.maxTransformLength f info = some e) : e.1.Bounded n h kinds := by
  obtain ⟨hlabel, hadded, hkept, -⟩ := Propagation.of_copy he
  refine ⟨hlabel ▸ hf.label, ?_, fun k hk => ?_, fun k hk => ?_⟩
  · have := hf.transforms
    rw [hadded, List.length_append, List.length_take]
    omega
  · rw [hadded] at hk
    exact (List.mem_append.1 hk).elim (hf.transformKinds k) fun hk =>
      htransforms k (List.mem_of_mem_take hk)
  · rw [hkept] at hk
    split at hk
    · exact (OrdSet.mem_union.1 hk).elim (hf.sanitizerKinds k) (hsanitizers k)
    · exact hf.sanitizerKinds k hk

theorem Plain.copy {limit : Nat} (hf : f.Plain) (he : p.copy limit f info = some e) :
    e.1.Plain := by
  obtain ⟨hlabel, -, hkept, -⟩ := Propagation.of_copy he
  intro id hid
  have hown : f.label = .kind id := hlabel ▸ hid
  -- sanitizers are kept for frames of parameters only
  rw [hkept, if_neg (by simp [isArgument, kind?, hown])]
  exact hf id hown

end Frame

/-! ### The contract -/

namespace Analysis

def bounds (a : Analysis) (m : Method) : Contract where
  name _ := True
  origin := m.Owns
  frame f _ := f.Bounded m.parameters.length a.heuristics a.kinds ∧ f.Plain
  port _ := True
  source f _ :=
    f.Bounded m.parameters.length a.heuristics a.kinds ∧ f.Plain ∧ f.isArgument = false
  sink f _ := f.Bounded m.parameters.length a.heuristics a.kinds ∧ f.isArgument = false
  propagation p :=
    (∀ k ∈ p.transforms, k.index < a.kinds.size) ∧ ∀ k ∈ p.sanitizers, k.index < a.kinds.size
  effect k := k.index < a.kinds.size

variable {a : Analysis} {m : Method}

theorem bounds_closed : (a.bounds m).Closed a.heuristics.maxFieldDepth where
  frames _ _ _ hf _ := hf
  sources _ _ _ hf _ := hf
  sinks _ _ _ hf _ := hf
  below _ hf := ⟨hf.1.below _, hf.2.below _ _⟩
  mark _ hf := hf

theorem bounds_infers : (a.bounds m).Infers m a.heuristics a.kinds where
  ports _ _ := trivial
  sources hkind hf := ⟨hf.1, hf.2, hkind⟩
  sinkPorts _ _ := trivial
  sinks hsink hf hlabel := by
    refine ⟨hsink.1.atParameter hf.1 hlabel, ?_⟩
    rcases hlabel with rfl | ⟨id, rfl, -⟩
    · exact hsink.2
    · rfl
  propagations _ _ hf _ _ := ⟨hf.1.transformKinds, hf.1.sanitizerKinds⟩

/-- Only frames of kinds leave a method, whose bounds hold in every method. -/
theorem bounds_admits (k : Method) (stepOf : Port → Step) :
    (a.bounds m).Admits (a.bounds k) a.heuristics stepOf where
  names _ _ _ := trivial
  generations _ hf := ⟨hf.1.of_kind hf.2.2, hf.2.1⟩
  sinks _ hf := ⟨hf.1.of_kind hf.2, hf.2⟩
  propagations _ := ⟨fun _ _ => trivial, fun _ _ => trivial⟩
  copies hp hf he := ⟨hf.1.copy hp.1 hp.2 he, hf.2.copy he⟩

theorem bounds_declared {model : Model} (h : model.Meets (.declared a.kinds.size)) :
    model.Meets (a.bounds m) := by
  have hframe (f : Frame) (info : FrameInfo) (hf : f.DeclaredIn a.kinds.size info) :
      f.Bounded m.parameters.length a.heuristics a.kinds ∧ f.Plain ∧ f.isArgument = false := by
    obtain ⟨⟨id, hid, rfl⟩, -⟩ := hf
    exact ⟨Frame.bounded_of_label hid, fun _ _ => rfl, rfl⟩
  exact h.mono (fun _ h => h) hframe (fun f info hf => ⟨(hframe f info hf).1, (hframe f info hf).2.2⟩)
    (fun _ h => h) fun _ h => h

theorem bounds_suits (hdeclared : a.program.DeclaredIn a.kinds.size) (hm : m ∈ a.program.methods) :
    (a.bounds m).Suits m a.heuristics a.kinds where
  closed := bounds_closed
  infers := bounds_infers
  declared model hmodel := bounds_declared (hdeclared m hm model hmodel)
  names _ _ _ := trivial
  seeds hf := ⟨hf.1, hf.2.1⟩
  parameters _ hi := ⟨⟨rfl, hi⟩, Frame.bounded_of_label ⟨hi, List.not_mem_nil, Nat.zero_le _⟩, nofun⟩
  instructions body hbody i hi := ⟨⟨rfl, body, hbody, i, hi, rfl⟩,
    Instruction.fits_of_path (fun _ _ _ => trivial) i.2⟩

/-- Every method keeps to its bounds. -/
theorem upholds_bounds (hp : a.program.WellFormed) (hdeclared : a.program.DeclaredIn a.kinds.size) :
    a.Upholds (contractsOf a.program a.bounds) where
  suits m hm := by
    rw [contractsOf_id hp a.bounds hm]
    exact bounds_suits hdeclared hm
  admits m hm call _ k hk _ := by
    rw [contractsOf_id hp a.bounds hm, contractsOf_id hp a.bounds hk]
    exact bounds_admits k _

end Analysis

/-! ### Bounded states -/

def Node.height : Node → Nat
  | bare _ => 0
  | field _ child rest => max (child.height + 1) rest.height

theorem Node.Fits.height_le {V : Vocabulary} {depth k : Nat} {t : Node}
    (hlevel : ∀ k, V.level k → k < depth) (ht : t.Fits V k) (hk : k ≤ depth) :
    k + t.height ≤ depth := by
  induction t generalizing k with
  | bare fs => exact hk
  | field name child rest ihChild ihRest =>
    obtain ⟨⟨-, hown⟩, hchild, hrest⟩ := ht
    have := ihChild hchild (hlevel k hown)
    have := ihRest hrest hk
    simp only [height]
    omega

structure State.Bounded (a : Analysis) (m : Method) (s : State) : Prop where
  locations : ∀ register, ∀ l ∈ s.read register,
    m.Owns l.origin ∧ l.path.length ≤ a.heuristics.maxFieldDepth
  roots : ∀ o tree, s.tree? o = some tree → m.Owns o
  height : ∀ o tree, s.tree? o = some tree → tree.root.height ≤ a.heuristics.maxFieldDepth
  frames : ∀ o tree, s.tree? o = some tree → ∀ e ∈ tree.nodes, OrdMap.Each
    (fun f _ => f.Bounded m.parameters.length a.heuristics a.kinds ∧ f.Plain) e.2

theorem State.Fits.bounded {a : Analysis} {m : Method} {s : State}
    (hs : s.Fits ((a.bounds m).vocabulary a.heuristics.maxFieldDepth)) : s.Bounded a m where
  locations register l hl := by
    have hfits := hs.bound register l hl
    exact ⟨hfits.origin, le_of_forall_lt hfits.level⟩
  roots o tree htree := (hs.tree o tree htree).1
  height o tree htree := by
    have := Node.Fits.height_le (fun _ h => h) (hs.tree o tree htree).2 (Nat.zero_le _)
    omega
  frames o tree htree _ he := ((hs.tree o tree htree).2.of_mem_nodes he).2

namespace Analysis

variable {a : Analysis}

theorem effects_lt (hdeclared : a.program.DeclaredIn a.kinds.size) :
    ∀ k ∈ EffectIndex.effects a.program, k.index < a.kinds.size := by
  refine List.foldlRecOn (motive := fun ks : OrdSet KindId => ∀ k ∈ ks, k.index < a.kinds.size)
    a.program.methods _ (fun k hk => absurd hk (OrdSet.not_mem_empty k)) fun ks hks m hm k hk => ?_
  rcases OrdSet.mem_union.1 hk with hk | hk
  · exact hks k hk
  · cases hmodel : m.declared with
    | none =>
      rw [hmodel] at hk
      exact absurd hk (OrdSet.not_mem_empty k)
    | some model =>
      rw [hmodel] at hk
      exact (hdeclared m hm model hmodel).effectSources k hk

/-- Whatever an analysis comes to on its way is within its bounds: every state that is reached in a
method, every summary at every moment, and all that is observed and found. So every location that is
looked up is one of the method that is walked, every kind one of the table, and trees are written at
chains of fields, none of them longer than the depth. The components may come in any order, and some
of them too late. -/
theorem run_bounded (hp : a.program.WellFormed) (hdeclared : a.program.DeclaredIn a.kinds.size)
    (w : Course) :
    (∀ v ∈ a.visits w, ∀ body, v.1.body = some body →
      ∀ s, s ∈ (a.walkAt v.1 v.2).reached body (a.walkAt v.1 v.2).entry ∨
          ((a.walkAt v.1 v.2).gather body).exit = some s →
        s.Bounded a v.1 ∧ ∀ register, ∀ l ∈ s.read register,
          (Memory.new v.1.id).originOf? l = some l.origin) ∧
    (∀ p ∈ a.moments w, ∀ m ∈ a.program.methods, ∀ model, p.summaries.get? m.id = some model →
      model.Meets (a.bounds m)) ∧
    (∀ v ∈ a.visits w, ∀ o ∈ (MethodAnalysis.run (a.walkAt v.1 v.2)).observations,
      o.Meets (a.bounds v.1)) ∧
    (∀ v ∈ a.visits w, ∀ f ∈ (a.verdict (a.callee v.2) v.1).matched.findings,
      ∃ o ∈ (MethodAnalysis.run (a.walkAt v.1 v.2)).observations, ∃ h : Hit,
        f = a.matcher.finding v.1 o h ∧ ∀ source ∈ h.sources, source.1.index < a.kinds.size) ∧
    (∀ k ∈ EffectIndex.effects a.program, k.index < a.kinds.size) ∧
    ∀ path : Path,
      (TaintTree.fieldNames (path.normalize a.heuristics.maxFieldDepth)).map Segment.field =
          path.normalize a.heuristics.maxFieldDepth ∧
        (path.normalize a.heuristics.maxFieldDepth).length ≤ a.heuristics.maxFieldDepth := by
  have ha := upholds_bounds hp hdeclared
  have hcontract {v : Method × Progress} (hv : v ∈ a.visits w) :
      contractsOf a.program a.bounds v.1.id = a.bounds v.1 :=
    contractsOf_id hp a.bounds (method_of_mem_visits hv)
  refine ⟨fun v hv body hbody s hs => ?_, fun p hmoment m hm model hmodel => ?_,
    fun v hv o ho => ?_, fun v hv f hf => ?_, effects_lt hdeclared, fun path => ?_⟩
  · have hfits := hcontract hv ▸ hs.elim (ha.reached_fits hv hbody s) (ha.exit_fits hv hbody s)
    exact ⟨hfits.bounded, fun register l hl => if_pos (hfits.bound register l hl).origin.1⟩
  · exact contractsOf_id hp a.bounds hm ▸ ha.moments_meet p hmoment m.id model hmodel
  · obtain ⟨hm, hmeets⟩ := ha.visits_meet hv
    exact hcontract hv ▸ ha.observations hm hmeets o ho
  · obtain ⟨hm, hmeets⟩ := ha.visits_meet hv
    obtain ⟨o, ho, -, h, hh, rfl⟩ := ha.exists_hit hm hmeets hf
    refine ⟨o, ho, h, rfl, fun source hsource => ?_⟩
    obtain ⟨f, hkind, hf⟩ := hh source hsource
    rw [hcontract hv] at hf
    exact hf.1.kind (Frame.kind?_eq_some_iff.1 hkind)
  · exact ⟨Path.map_fieldNames (path.wildcard_not_mem_normalize _), path.length_normalize_le _⟩

theorem run_bounded_echo :
    (echo.visits echo.swift).map (fun v => v.1.name) = ["echo", "main"] ∧
      ∀ v ∈ echo.visits echo.swift, ∀ body, v.1.body = some body →
        ∀ s ∈ (echo.walkAt v.1 v.2).reached body (echo.walkAt v.1 v.2).entry,
          s.Bounded echo v.1 := by
  refine ⟨by decide, fun v hv body hbody s hs => ?_⟩
  exact ((run_bounded echo_wellFormed echo_declaredIn echo.swift).1 v hv body hbody s (.inl hs)).1

end Analysis

end TaintFlow
