import TaintFlow.Proofs.Acceptance
import TaintFlow.Proofs.ModelJoins
import TaintFlow.Proofs.PrunedPrograms

/-!
Declarations in parts. Where the kinds are known, the model of a declaration is made entry by entry
(`ModelDeclaration.modelIn`), and the model of entries that are dealt out to several declarations is
the join of their models. A program holds for each method the join of what its document and the
model files declare. So it does not matter how a declaration is split: `Program.load_split`.
-/

namespace TaintFlow

namespace Model

def frameAt (e : Port × Frame × FrameInfo) : PortFrames := PortFrames.add ∅ e.1 e.2.1 e.2.2

variable {es es' : List (Port × Frame × FrameInfo)}

theorem ofFrames_eq (es : List (Port × Frame × FrameInfo)) :
    ofFrames es = (es.map frameAt).foldl PortFrames.join ∅ := by
  rw [List.foldl_map]
  exact List.foldl_ext _ _ _ fun m e _ => PortFrames.add_eq_join m e.1 e.2.1 e.2.2

theorem ofFrames_append : ofFrames (es ++ es') = (ofFrames es).join (ofFrames es') := by
  rw [ofFrames_eq, ofFrames_eq, ofFrames_eq, List.map_append, List.foldl_append]
  exact foldl_eq_op _ _ _ _

/-- The order of frames does not matter. -/
theorem ofFrames_perm (h : es.Perm es') : ofFrames es = ofFrames es' := by
  rw [ofFrames_eq, ofFrames_eq]
  exact (h.map frameAt).foldl_eq ∅

end Model

/-! ### Declarations -/

def Kind.texts : Kind → List String
  | .named name => [name]
  | .half h | .triggered h _ => [h.base, h.label]

def Port.IsArgument (port : Port) : Prop := ∃ index, port.root = .argument index

def SinkDeclaration.declares (d : SinkDeclaration) : Kind :=
  match d.label with
  | some label => .half ⟨d.kind, label⟩
  | none => .named d.kind

namespace ModelDeclaration

def kinds (d : ModelDeclaration) : List Kind :=
  d.generations.map (.named ·.kind) ++ d.parameterSources.map (.named ·.kind) ++
    d.sinks.map SinkDeclaration.declares ++
    d.propagations.flatMap (fun p => (p.transforms ++ p.sanitizers).map .named) ++
    d.effectSources.map .named

def argumentPorts (d : ModelDeclaration) : List Port :=
  d.parameterSources.map (·.port) ++ d.sinks.map (·.port) ++ d.propagations.map (·.input)

/-- Ports are arguments where that is asked for, and all names are names of kinds. -/
structure WellFormed (d : ModelDeclaration) : Prop where
  ports : ∀ port ∈ d.argumentPorts, port.IsArgument
  names : ∀ kind ∈ d.kinds, ∀ text ∈ kind.texts, IsKindName text

/-- The entries of a declaration are dealt out to others, each to one of them. -/
structure DealtTo (d : ModelDeclaration) (parts : List ModelDeclaration) : Prop where
  generations : d.generations.Perm (parts.flatMap generations)
  parameterSources : d.parameterSources.Perm (parts.flatMap parameterSources)
  sinks : d.sinks.Perm (parts.flatMap sinks)
  propagations : d.propagations.Perm (parts.flatMap propagations)
  effectSources : d.effectSources.Perm (parts.flatMap effectSources)

variable {d : ModelDeclaration} {parts : List ModelDeclaration}

theorem append_perm {α β : Type} {parts : List α} {f g : α → List β} {as bs : List β}
    (hf : as.Perm (parts.flatMap f)) (hg : bs.Perm (parts.flatMap g)) :
    (as ++ bs).Perm (parts.flatMap fun part => f part ++ g part) :=
  (hf.append hg).trans (List.flatMap_append_perm parts f g)

theorem map_perm {α β γ : Type} {parts : List α} {f : α → List β} {as : List β} (g : β → γ)
    (h : as.Perm (parts.flatMap f)) : (as.map g).Perm (parts.flatMap fun part => (f part).map g) :=
  List.map_flatMap ▸ h.map g

theorem DealtTo.kinds_perm (h : d.DealtTo parts) : d.kinds.Perm (parts.flatMap kinds) := by
  have hpropagations := h.propagations.flatMap_right fun p =>
    (p.transforms ++ p.sanitizers).map Kind.named
  rw [List.flatMap_assoc] at hpropagations
  exact append_perm (append_perm (append_perm (append_perm (map_perm _ h.generations)
    (map_perm _ h.parameterSources)) (map_perm _ h.sinks)) hpropagations)
    (map_perm _ h.effectSources)

theorem DealtTo.argumentPorts_perm (h : d.DealtTo parts) :
    d.argumentPorts.Perm (parts.flatMap argumentPorts) :=
  append_perm (append_perm (map_perm _ h.parameterSources) (map_perm _ h.sinks))
    (map_perm _ h.propagations)

/-- A declaration is well-formed if and only if all its parts are. -/
theorem DealtTo.wellFormed_iff (h : d.DealtTo parts) :
    d.WellFormed ↔ ∀ part ∈ parts, part.WellFormed := by
  constructor
  · intro hd part hpart
    exact ⟨fun port hport => hd.ports port
        (h.argumentPorts_perm.mem_iff.2 (List.mem_flatMap.2 ⟨part, hpart, hport⟩)),
      fun kind hkind => hd.names kind
        (h.kinds_perm.mem_iff.2 (List.mem_flatMap.2 ⟨part, hpart, hkind⟩))⟩
  · intro hparts
    refine ⟨fun port hport => ?_, fun kind hkind => ?_⟩
    · obtain ⟨part, hpart, hport⟩ := List.mem_flatMap.1 (h.argumentPorts_perm.mem_iff.1 hport)
      exact (hparts part hpart).ports port hport
    · obtain ⟨part, hpart, hkind⟩ := List.mem_flatMap.1 (h.kinds_perm.mem_iff.1 hkind)
      exact (hparts part hpart).names kind hkind

end ModelDeclaration

/-! ### Models where the kinds are known -/

section

variable (t : KindTable)

def KindTable.Knows (kind : Kind) : Prop :=
  (∀ text ∈ kind.texts, IsKindName text) → ∃ id, t.find? kind = some id

def KindTable.idOf (kind : Kind) : KindId := (t.intern kind).1

def SourceDeclaration.frameIn (d : SourceDeclaration) : Port × Frame × FrameInfo :=
  (d.port, .ofKind (t.idOf (.named d.kind)), .ofFeatures d.features)

def SinkDeclaration.frameIn (d : SinkDeclaration) : Port × Frame × FrameInfo :=
  (d.port, .ofKind (t.idOf d.declares), .ofFeatures d.features)

def PropagationDeclaration.propagationIn (d : PropagationDeclaration) : Propagation where
  input := d.input
  output := d.output
  transforms := d.transforms.map fun name => t.idOf (.named name)
  sanitizers := OrdSet.ofList (d.sanitizers.map fun name => t.idOf (.named name))
  aliasing := d.aliasing
  features := OrdSet.ofList d.features

def ModelDeclaration.modelIn (d : ModelDeclaration) : Model where
  generations := Model.ofFrames (d.generations.map (·.frameIn t))
  parameterSources := Model.ofFrames (d.parameterSources.map (·.frameIn t))
  sinks := Model.ofFrames (d.sinks.map (·.frameIn t))
  propagations := OrdSet.ofList (d.propagations.map (·.propagationIn t))
  effectSources := OrdSet.ofList (d.effectSources.map fun name => t.idOf (.named name))

end

namespace ModelDeclaration

variable {t : KindTable} {d : ModelDeclaration} {parts : List ModelDeclaration}

def concat (parts : List ModelDeclaration) : ModelDeclaration where
  generations := parts.flatMap generations
  parameterSources := parts.flatMap parameterSources
  sinks := parts.flatMap sinks
  propagations := parts.flatMap propagations
  effectSources := parts.flatMap effectSources

theorem modelIn_concat : (concat parts).modelIn t = Model.joinAll (parts.map (modelIn t)) := by
  induction parts with
  | nil => rfl
  | cons part parts ih =>
    rw [List.map_cons, Model.joinAll_cons, ← ih]
    simp only [modelIn, concat, List.flatMap_cons, List.map_append, Model.ofFrames_append,
      OrdSet.ofList_append, Model.join]

/-- The model of a declaration is the join of the models of its parts. -/
theorem DealtTo.modelIn (h : d.DealtTo parts) :
    d.modelIn t = Model.joinAll (parts.map (modelIn t)) := by
  rw [← modelIn_concat]
  simp only [ModelDeclaration.modelIn, concat]
  rw [Model.ofFrames_perm (h.generations.map _), Model.ofFrames_perm (h.parameterSources.map _),
    Model.ofFrames_perm (h.sinks.map _), OrdSet.ofList_perm (h.propagations.map _),
    OrdSet.ofList_perm (h.effectSources.map _)]

end ModelDeclaration

/-! ### Reading declarations -/

namespace Model

open Interning

theorem accepts_requireArgument (port : Port) (what : String) :
    Accepts (liftM (requireArgument port what) : Interning Unit) port.IsArgument := by
  refine (accepts_lift _).congr ?_
  unfold requireArgument Port.IsArgument
  split
  · next index hroot => exact ⟨fun _ => ⟨index, hroot⟩, fun _ => ⟨(), rfl⟩⟩
  · next hroot => simp [hroot, throw, throwThe, MonadExceptOf.throw]

theorem accepts_declaredSource (d : SourceDeclaration) :
    (declaredSource d).Accepts (IsKindName d.kind) :=
  accepts_map (accepts_named d.kind) _

theorem accepts_declaredParameterSource (d : SourceDeclaration) :
    (declaredParameterSource d).Accepts (d.port.IsArgument ∧ IsKindName d.kind) :=
  accepts_seq (accepts_requireArgument _ _) fun _ => accepts_declaredSource d

theorem accepts_declaredSink (d : SinkDeclaration) : (declaredSink d).Accepts
    (d.port.IsArgument ∧ ∀ text ∈ d.declares.texts, IsKindName text) := by
  refine accepts_seq (accepts_requireArgument _ _) fun _ => ?_
  unfold SinkDeclaration.declares
  cases d.label with
  | none => exact accepts_map (accepts_internValid _ _) _
  | some label => exact accepts_map (accepts_internValid _ _) _

theorem accepts_declaredPropagation (d : PropagationDeclaration) :
    (declaredPropagation d).Accepts (d.input.IsArgument ∧
      (∀ name ∈ d.transforms, IsKindName name) ∧ ∀ name ∈ d.sanitizers, IsKindName name) :=
  accepts_seq (accepts_requireArgument _ _) fun _ =>
    accepts_seq (accepts_namedAll _) fun _ => accepts_map (accepts_namedAll _) _

/-- A declaration is accepted if and only if it is well-formed. -/
theorem accepts_ofDeclaration (d : ModelDeclaration) : (ofDeclaration d).Accepts d.WellFormed := by
  refine (accepts_seq (accepts_mapM accepts_declaredSource _) fun _ =>
    accepts_seq (accepts_mapM accepts_declaredParameterSource _) fun _ =>
    accepts_seq (accepts_mapM accepts_declaredSink _) fun _ =>
    accepts_seq (accepts_mapM accepts_declaredPropagation _) fun _ =>
    accepts_map (accepts_namedAll _) _).congr ?_
  constructor
  · rintro ⟨hgenerations, hparameters, hsinks, hpropagations, heffects⟩
    constructor
    · simp only [ModelDeclaration.argumentPorts, List.forall_mem_append, List.forall_mem_map]
      exact ⟨⟨fun s hs => (hparameters s hs).1, fun s hs => (hsinks s hs).1⟩,
        fun p hp => (hpropagations p hp).1⟩
    · simp only [ModelDeclaration.kinds, List.forall_mem_append, List.forall_mem_map,
        List.forall_mem_flatMap, Kind.texts, List.forall_mem_singleton]
      exact ⟨⟨⟨⟨hgenerations, fun s hs => (hparameters s hs).2⟩, fun s hs => (hsinks s hs).2⟩,
        fun p hp => (hpropagations p hp).2⟩, heffects⟩
  · rintro ⟨hports, hnames⟩
    simp only [ModelDeclaration.argumentPorts, List.forall_mem_append, List.forall_mem_map]
      at hports
    simp only [ModelDeclaration.kinds, List.forall_mem_append, List.forall_mem_map,
      List.forall_mem_flatMap, Kind.texts, List.forall_mem_singleton] at hnames
    obtain ⟨⟨hparameters, hsinks⟩, hpropagations⟩ := hports
    obtain ⟨⟨⟨⟨hgenerations, hparameters'⟩, hsinks'⟩, hpropagations'⟩, heffects⟩ := hnames
    exact ⟨hgenerations, fun s hs => ⟨hparameters s hs, hparameters' s hs⟩,
      fun s hs => ⟨hsinks s hs, hsinks' s hs⟩,
      fun p hp => ⟨hpropagations p hp, hpropagations' p hp⟩, heffects⟩

variable {t : KindTable}

theorem keeps_named {name : String} (h : t.Knows (.named name)) :
    Keeps t (named name) (t.idOf (.named name)) :=
  keeps_internValid (by simpa [KindTable.Knows, Kind.texts] using h)

theorem keeps_namedAll {names : List String} (h : ∀ name ∈ names, t.Knows (.named name)) :
    Keeps t (namedAll names) (names.map fun name => t.idOf (.named name)) :=
  keeps_mapM fun name hname => keeps_named (h name hname)

theorem keeps_declaredSource {d : SourceDeclaration} (h : t.Knows (.named d.kind)) :
    Keeps t (declaredSource d) (d.frameIn t) :=
  keeps_bind (keeps_named h) (keeps_pure _)

theorem keeps_declaredSink {d : SinkDeclaration} (h : t.Knows d.declares) :
    Keeps t (declaredSink d) (d.frameIn t) := by
  refine keeps_bind (keeps_check _) ?_
  unfold SinkDeclaration.frameIn
  unfold SinkDeclaration.declares at h ⊢
  cases hlabel : d.label with
  | none =>
    rw [hlabel] at h
    exact keeps_bind (keeps_named h) (keeps_pure _)
  | some label =>
    rw [hlabel] at h
    exact keeps_bind (keeps_internValid h) (keeps_pure _)

theorem keeps_declaredPropagation {d : PropagationDeclaration}
    (h : ∀ name ∈ d.transforms ++ d.sanitizers, t.Knows (.named name)) :
    Keeps t (declaredPropagation d) (d.propagationIn t) := by
  obtain ⟨htransforms, hsanitizers⟩ := List.forall_mem_append.1 h
  exact keeps_bind (keeps_check _) (keeps_bind (keeps_namedAll htransforms)
    (keeps_bind (keeps_namedAll hsanitizers) (keeps_pure _)))

/-- Where its kinds are known, a declaration comes to the model by their ids. -/
theorem keeps_ofDeclaration {d : ModelDeclaration} (h : ∀ kind ∈ d.kinds, t.Knows kind) :
    Keeps t (ofDeclaration d) (d.modelIn t) := by
  simp only [ModelDeclaration.kinds, List.forall_mem_append, List.forall_mem_map,
    List.forall_mem_flatMap] at h
  obtain ⟨⟨⟨⟨hgenerations, hparameters⟩, hsinks⟩, hpropagations⟩, heffects⟩ := h
  exact keeps_bind (keeps_mapM fun s hs => keeps_declaredSource (hgenerations s hs)) <|
    keeps_bind (keeps_mapM fun s hs =>
      keeps_bind (keeps_check _) (keeps_declaredSource (hparameters s hs))) <|
    keeps_bind (keeps_mapM fun s hs => keeps_declaredSink (hsinks s hs)) <|
    keeps_bind (keeps_mapM fun p hp =>
      keeps_declaredPropagation (List.forall_mem_append.2 (hpropagations p hp))) <|
    keeps_bind (keeps_namedAll heffects) (keeps_pure _)

end Model

/-! ### Loading -/

namespace Program

open Interning

/-- The declarations for a method: the one of its document and those of model files. -/
def parts (document : ProgramDocument) (entries : List MethodModel) (name : String) :
    List ModelDeclaration :=
  (document.filter fun d => d.name = name).filterMap MethodDocument.model ++
    (entries.filter fun e => e.method = name).map MethodModel.model

theorem accepts_declaredModel (method : String) (d : ModelDeclaration) :
    (declaredModel method d).Accepts d.WellFormed :=
  accepts_rethrow (Model.accepts_ofDeclaration d) _

theorem accepts_addMethod (p : Program) (d : MethodDocument) : (p.addMethod d).Accepts
    (p.lookup d.name = none ∧ ∀ model, d.model = some model → model.WellFormed) :=
  (accepts_guard fun _ => accepts_map (accepts_mapM_option (accepts_declaredModel d.name) d.model)
    _).congr (and_congr_left fun _ => by simp)

theorem yields_addMethod_lookup (p : Program) (d : MethodDocument) : (p.addMethod d).Yields fun q =>
    ∀ name, q.lookup name = none ↔ p.lookup name = none ∧ d.name ≠ name :=
  yields_guard fun _ => yields_bind (yields_true _) fun _ _ =>
    yields_pure fun _ => lookup_push _ _ _

theorem accepts_addMethods (ds : ProgramDocument) (p : Program) :
    (ds.foldlM addMethod p).Accepts ((∀ d ∈ ds, p.lookup d.name = none) ∧
      (ds.map MethodDocument.name).Nodup ∧
        ∀ d ∈ ds, ∀ model, d.model = some model → model.WellFormed) := by
  induction ds generalizing p with
  | nil => exact (accepts_pure p).congr (by simp)
  | cons d ds ih =>
    rw [List.foldlM_cons]
    refine (accepts_bind (accepts_addMethod p d) (yields_addMethod_lookup p d) fun q hq =>
      (ih q).congr (and_congr_left fun _ => forall₂_congr fun d' _ => hq d'.name)).congr ?_
    have hnew : d.name ∉ ds.map MethodDocument.name ↔ ∀ d' ∈ ds, d.name ≠ d'.name := by
      simp [eq_comm]
    rw [List.map_cons, List.nodup_cons, hnew, List.forall_mem_cons, List.forall_mem_cons]
    simp only [forall_and]
    tauto

theorem mem_parts {document : ProgramDocument} {entries : List MethodModel} {name : String}
    {part : ModelDeclaration} : part ∈ parts document entries name ↔
      (∃ d ∈ document, d.name = name ∧ d.model = some part) ∨
        ∃ e ∈ entries, e.method = name ∧ e.model = part := by
  simp [parts, and_assoc]

/-- Loading is accepted if no two methods of the document have the same name and all declarations
are well-formed. -/
theorem accepts_load (document : ProgramDocument) (entries : List MethodModel) :
    (load document entries).Accepts ((document.map MethodDocument.name).Nodup ∧
      ∀ name, ∀ part ∈ parts document entries name, part.WellFormed) := by
  refine (accepts_seq (accepts_addMethods document ∅) fun p => accepts_foldlM (fun p e =>
    accepts_map (accepts_declaredModel e.method e.model) _) entries p).congr ?_
  simp only [mem_parts]
  constructor
  · rintro ⟨⟨-, hnames, hdocument⟩, hentries⟩
    refine ⟨hnames, ?_⟩
    rintro name part (⟨d, hd, -, hpart⟩ | ⟨e, he, -, rfl⟩)
    · exact hdocument d hd part hpart
    · exact hentries e he
  · rintro ⟨hnames, hparts⟩
    exact ⟨⟨fun _ _ => rfl, hnames, fun d hd model hmodel =>
      hparts d.name model (.inl ⟨d, hd, rfl, hmodel⟩)⟩,
      fun e he => hparts e.method e.model (.inr ⟨e, he, rfl, rfl⟩)⟩

/-! #### Known kinds -/

variable {t : KindTable} {p : Program} {name : String} {ps : List ModelDeclaration}

def addMethodIn (t : KindTable) (p : Program) (d : MethodDocument) : Program :=
  p.push d.name d.parameters (d.body.map fun b => (b.number 0).1)
    (d.model.map (ModelDeclaration.modelIn t))

def addModelIn (t : KindTable) (p : Program) (e : MethodModel) : Program :=
  p.joinDeclared e.method (e.model.modelIn t)

def loadIn (t : KindTable) (document : ProgramDocument) (entries : List MethodModel) : Program :=
  entries.foldl (addModelIn t) (document.foldl (addMethodIn t) ∅)

theorem keeps_addMethod {d : MethodDocument}
    (h : ∀ model, d.model = some model → ∀ kind ∈ model.kinds, t.Knows kind) :
    Keeps t (p.addMethod d) (p.addMethodIn t d) :=
  keeps_guard (keeps_bind (keeps_mapM_option fun model hmodel =>
    keeps_rethrow (Model.keeps_ofDeclaration (h model hmodel)) _) (keeps_pure _))

theorem keeps_addModel {e : MethodModel} (h : ∀ kind ∈ e.model.kinds, t.Knows kind) :
    Keeps t (p.addModel e) (p.addModelIn t e) :=
  keeps_bind (keeps_rethrow (Model.keeps_ofDeclaration h) _) (keeps_pure _)

theorem keeps_load {document : ProgramDocument} {entries : List MethodModel}
    (h : ∀ name, ∀ part ∈ parts document entries name, ∀ kind ∈ part.kinds, t.Knows kind) :
    Keeps t (load document entries) (loadIn t document entries) :=
  keeps_bind (keeps_foldlM fun _ d hd => keeps_addMethod fun model hmodel =>
    h d.name model (mem_parts.2 (.inl ⟨d, hd, rfl, hmodel⟩))) <|
    keeps_foldlM fun _ e he => keeps_addModel
      (h e.method e.model (mem_parts.2 (.inr ⟨e, he, rfl, rfl⟩)))

def declaredFor (p : Program) (name : String) : Option Model :=
  (p.lookup name).bind Method.declared

theorem declaredFor_push {own : String} (hnew : p.lookup own = none) (parameters : List String)
    (body : Option Body) (declared : Option Model) :
    (p.push own parameters body declared).declaredFor name =
      if own = name then declared else p.declaredFor name := by
  rw [declaredFor, lookup, push, List.find?_append, ← lookup, List.find?_singleton]
  by_cases hname : own = name
  · subst hname
    simp [hnew]
  · simp [hname, declaredFor]

theorem declaredFor_joinDeclared (own : String) (model : Model) :
    (p.joinDeclared own model).declaredFor name =
      if own = name then some (((p.declaredFor own).getD ∅).join model)
      else p.declaredFor name := by
  rw [joinDeclared_eq]
  cases hown : p.lookup own with
  | none =>
    have hnone : p.declaredFor own = none := by rw [declaredFor, hown, Option.bind_none]
    rw [if_neg (by simp), declaredFor_push hown, hnone, Option.getD_none,
      Model.empty_join]
  | some m =>
    have hlookup : (⟨p.methods.map (declaring own model)⟩ : Program).lookup name =
        (p.lookup name).map (declaring own model) := by
      have hsame : (fun m : Method => m.name == name) ∘ declaring own model = (·.name == name) :=
        funext fun m => by rw [Function.comp_apply, name_declaring]
      rw [lookup, List.find?_map, hsame]
      rfl
    rw [if_pos (by simp), declaredFor, hlookup]
    by_cases hname : own = name
    · subst hname
      have hm : m.name = own := (mem_of_lookup hown).2
      simp [declaredFor, hown, declaring, hm]
    · rw [if_neg hname, declaredFor]
      cases hk : p.lookup name with
      | none => rfl
      | some k =>
        have hne : k.name ≠ own := fun h => hname (h.symm.trans (mem_of_lookup hk).2)
        simp [declaring, hne]

/-- A program has for a name the join of the models of some declarations, if there are any. -/
def Declares (t : KindTable) (p : Program) (name : String) (ps : List ModelDeclaration) : Prop :=
  p.declaredFor name =
    if ps = [] then none else some (Model.joinAll (ps.map (ModelDeclaration.modelIn t)))

theorem Declares.getD (h : p.Declares t name ps) :
    (p.declaredFor name).getD ∅ = Model.joinAll (ps.map (ModelDeclaration.modelIn t)) := by
  rw [h]
  split
  · next hps => rw [hps]; rfl
  · rfl

theorem Declares.addMethod (h : p.Declares t name ps) {d : MethodDocument}
    (hnew : p.lookup d.name = none) :
    (p.addMethodIn t d).Declares t name (ps ++ if d.name = name then d.model.toList else []) := by
  rw [Declares, addMethodIn, declaredFor_push hnew]
  split
  · next hname =>
    subst hname
    have hps : ps = [] := by
      by_contra hps
      rw [Declares, declaredFor, hnew, if_neg hps] at h
      cases h
    rw [hps, List.nil_append]
    cases d.model with
    | none => rfl
    | some model => exact congrArg some (Model.empty_join (model.modelIn t)).symm
  · rw [List.append_nil]
    exact h

theorem Declares.addModel (h : p.Declares t name ps) (e : MethodModel) :
    (p.addModelIn t e).Declares t name (ps ++ if e.method = name then [e.model] else []) := by
  rw [Declares, addModelIn, declaredFor_joinDeclared]
  split
  · next hname =>
    subst hname
    rw [h.getD, if_neg (by simp), List.map_append, Model.joinAll, Model.joinAll, List.foldl_append]
    rfl
  · rw [List.append_nil]
    exact h

theorem Declares.addMethods (h : p.Declares t name ps) {ds : ProgramDocument}
    (hnew : ∀ d ∈ ds, p.lookup d.name = none) (hnames : (ds.map MethodDocument.name).Nodup) :
    (ds.foldl (addMethodIn t) p).Declares t name
      (ps ++ (ds.filter fun d => d.name = name).filterMap MethodDocument.model) := by
  -- names are distinct, so that every method is new when its turn comes
  induction ds generalizing p ps with
  | nil => simpa using h
  | cons d ds ih =>
    obtain ⟨hd, hds⟩ := List.forall_mem_cons.1 hnew
    obtain ⟨hfresh, hnames⟩ := List.nodup_cons.1 hnames
    have hlater : ∀ d' ∈ ds, (p.addMethodIn t d).lookup d'.name = none := fun d' hd' =>
      (lookup_push _ _ _).2 ⟨hds d' hd', fun heq => hfresh (List.mem_map.2 ⟨d', hd', heq.symm⟩)⟩
    have hrest := ih (h.addMethod hd) hlater hnames
    rw [List.append_assoc] at hrest
    by_cases hname : d.name = name
    · cases hmodel : d.model <;> simpa [hname, hmodel] using hrest
    · simpa [hname] using hrest

theorem Declares.addModels (h : p.Declares t name ps) (es : List MethodModel) :
    (es.foldl (addModelIn t) p).Declares t name
      (ps ++ (es.filter fun e => e.method = name).map MethodModel.model) := by
  induction es generalizing p ps with
  | nil => simpa using h
  | cons e es ih =>
    have hrest := ih (h.addModel e)
    rw [List.append_assoc] at hrest
    by_cases hname : e.method = name <;> simpa [hname] using hrest

/-- What is loaded declares for every name the join of what its parts declare. -/
theorem declares_loadIn {document : ProgramDocument} (entries : List MethodModel)
    (hnames : (document.map MethodDocument.name).Nodup) (name : String) :
    (loadIn t document entries).Declares t name (parts document entries name) := by
  have hempty : (∅ : Program).Declares t name [] := rfl
  exact (hempty.addMethods (fun _ _ => rfl) hnames).addModels entries

/-! #### Refused entries -/

/-- Adds entries of model files in turn, and goes on with the same program where one is refused. -/
def addEach (p : Program) (es : List MethodModel) : Interning Program :=
  es.foldlM (fun p e => tryCatch (p.addModel e) fun _ => pure p) p

def accepted (t : KindTable) (e : MethodModel) : Bool :=
  ((Model.ofDeclaration e.model).runOn t).1.isOk

theorem runOn_addEach_cons (p : Program) (e : MethodModel) (es : List MethodModel)
    (t : KindTable) : (p.addEach (e :: es)).runOn t =
      match (p.addModel e).runOn t with
      | (.ok q, t) => (q.addEach es).runOn t
      | (.error _, t) => (p.addEach es).runOn t := by
  rw [addEach, List.foldlM_cons, runOn_bind, runOn_tryCatch]
  rcases (p.addModel e).runOn t with ⟨_ | q, t₁⟩ <;> rfl

theorem runOn_addModels_cons (p : Program) (e : MethodModel) (es : List MethodModel)
    (t : KindTable) : (p.addModels (e :: es)).runOn t =
      match (p.addModel e).runOn t with
      | (.ok q, t) => (q.addModels es).runOn t
      | (.error c, t) => (.error c, t) := by
  rw [addModels, List.foldlM_cons, runOn_bind]
  rcases (p.addModel e).runOn t with ⟨_ | q, t₁⟩ <;> rfl

/-- Where the kinds are known, refused entries may be left out. -/
theorem addEach_eq_addModels (p : Program) (es : List MethodModel)
    (h : ∀ e ∈ es, ∀ kind ∈ e.model.kinds, t.Knows kind) :
    ∃ q, (p.addEach es).runOn t = (.ok q, t) ∧
      (p.addModels (es.filter (accepted t))).runOn t = (.ok q, t) := by
  induction es generalizing p with
  | nil => exact ⟨p, rfl, rfl⟩
  | cons e es ih =>
    obtain ⟨he, hes⟩ := List.forall_mem_cons.1 h
    rw [runOn_addEach_cons, addModel, runOn_bind, declaredModel, runOn_rethrow]
    rcases Model.keeps_ofDeclaration he with hrun | ⟨c, hrun⟩
    · have haccepted : accepted t e = true := by rw [accepted, hrun]; rfl
      rw [List.filter_cons_of_pos haccepted, runOn_addModels_cons, addModel, runOn_bind,
        declaredModel, runOn_rethrow, hrun]
      exact ih _ hes
    · have hrefused : ¬ accepted t e = true := by rw [accepted, hrun]; exact Bool.false_ne_true
      rw [List.filter_cons_of_neg hrefused, hrun]
      exact ih p hes

/-- It does not matter how declarations are split. Where their kinds are known, and the entries of
a declaration for each method are dealt out to the document and to entries of model files, loading
is accepted if and only if the whole declarations are and no two methods of the document have the
same name. The model that is declared for a method then is that of its whole declaration. An entry
that is refused leaves the program as it was. -/
theorem load_split (document : ProgramDocument) (entries : List MethodModel)
    (whole : String → ModelDeclaration)
    (hwhole : ∀ name, (whole name).DealtTo (parts document entries name)) (t : KindTable)
    (hknown : ∀ name, ∀ kind ∈ (whole name).kinds, t.Knows kind) :
    ((∃ p t', (load document entries).runOn t = (.ok p, t')) ↔
      (document.map MethodDocument.name).Nodup ∧
        ∀ name, ∃ m t', (Model.ofDeclaration (whole name)).runOn t = (.ok m, t')) ∧
      (∀ p t', (load document entries).runOn t = (.ok p, t') → t' = t ∧
        ∀ name, parts document entries name ≠ [] →
          ∃ method m, p.lookup name = some method ∧ method.declared = some m ∧
            (Model.ofDeclaration (whole name)).runOn t = (.ok m, t)) ∧
      (∀ (p : Program) e es c t₀ t₁, (p.addModel e).runOn t₀ = (.error c, t₁) →
        (p.addEach (e :: es)).runOn t₀ = (p.addEach es).runOn t₁) ∧
      ∀ (p : Program) es, (∀ e ∈ es, ∀ kind ∈ e.model.kinds, t.Knows kind) →
        ∃ q, (p.addEach es).runOn t = (.ok q, t) ∧
          (p.addModels (es.filter (accepted t))).runOn t = (.ok q, t) := by
  have hload := accepts_load document entries t
  have hwf : (∀ name, ∃ m t', (Model.ofDeclaration (whole name)).runOn t = (.ok m, t')) ↔
      ∀ name, ∀ part ∈ parts document entries name, part.WellFormed :=
    forall_congr' fun name =>
      (Model.accepts_ofDeclaration (whole name) t).trans (hwhole name).wellFormed_iff
  refine ⟨hload.trans (and_congr_right fun _ => hwf.symm), fun p t' hrun => ?_,
    fun p e es c t₀ t₁ hrefused => ?_, fun p es => addEach_eq_addModels p es⟩
  · have hparts : ∀ name, ∀ part ∈ parts document entries name, ∀ kind ∈ part.kinds,
        t.Knows kind := fun name part hpart kind hkind => hknown name kind
      ((hwhole name).kinds_perm.mem_iff.2 (List.mem_flatMap.2 ⟨part, hpart, hkind⟩))
    obtain ⟨hnames, hall⟩ := hload.1 ⟨p, t', hrun⟩
    -- the parts have no other kinds than the whole declarations, so nothing is interned
    rcases keeps_load hparts with hkept | ⟨c, hkept⟩
    · rw [hrun] at hkept
      cases hkept
      refine ⟨rfl, fun name hne => ?_⟩
      have hdeclared := declares_loadIn (t := t) entries hnames name
      rw [Declares, if_neg hne, ← (hwhole name).modelIn] at hdeclared
      obtain ⟨method, hmethod, hmodel⟩ := Option.bind_eq_some_iff.1 hdeclared
      refine ⟨method, _, hmethod, hmodel, ?_⟩
      obtain ⟨m, t'', haccepted⟩ := hwf.2 hall name
      rcases Model.keeps_ofDeclaration (hknown name) with hmodel | ⟨c, hmodel⟩
      · exact hmodel
      · rw [haccepted] at hmodel
        cases hmodel
    · rw [hrun] at hkept
      cases hkept
  · rw [runOn_addEach_cons, hrefused]

def sourceWith (kind feature : String) : ModelDeclaration :=
  ⟨[⟨kind, ⟨.result, []⟩, [feature]⟩], [], [], [], []⟩

/-- The document and a model file declare one source with different features; an entry without a
name of a kind is refused. -/
theorem load_split_fetch :
    let document : ProgramDocument := [⟨"fetch", [], none, some (sourceWith "Input" "network")⟩]
    let entries : List MethodModel := [⟨"fetch", .concat []⟩, ⟨"fetch", sourceWith "Input" "cache"⟩]
    let whole : ModelDeclaration :=
      .concat [sourceWith "Input" "cache", sourceWith "Input" "network"]
    let t : KindTable := ⟨[.named "Input"]⟩
    (∃ p method m, (load document entries).runOn t = (.ok p, t) ∧
      p.lookup "fetch" = some method ∧ method.declared = some m ∧
      (Model.ofDeclaration whole).runOn t = (.ok m, t)) ∧
      ((∅ : Program).addEach [⟨"fetch", sourceWith "" "cache"⟩, ⟨"fetch", whole⟩]).runOn t =
        ((∅ : Program).addEach [⟨"fetch", whole⟩]).runOn t := by
  intro document entries whole t
  have hdealt (name : String) : (if name = "fetch" then whole else .concat []).DealtTo
      (parts document entries name) := by
    by_cases hname : name = "fetch"
    · subst hname
      constructor <;> decide
    · have hnone : parts document entries name = [] := by
        simp [parts, document, entries, Ne.symm hname]
      rw [if_neg hname, hnone]
      constructor <;> exact .refl _
  have hknown (name : String) :
      ∀ kind ∈ (if name = "fetch" then whole else .concat []).kinds, t.Knows kind := by
    intro kind hkind _
    have hinput : kind = .named "Input" := by
      by_cases hname : name = "fetch"
      · simpa [hname, whole, sourceWith, ModelDeclaration.concat, ModelDeclaration.kinds]
          using hkind
      · simp [hname, ModelDeclaration.concat, ModelDeclaration.kinds] at hkind
    exact ⟨⟨0⟩, hinput ▸ rfl⟩
  obtain ⟨-, hdeclared, hrefused, -⟩ := load_split document entries
    (fun name => if name = "fetch" then whole else .concat []) hdealt t hknown
  obtain ⟨p, hp⟩ : ∃ p, (load document entries).runOn t = (.ok p, t) := ⟨_, by rfl⟩
  obtain ⟨method, m, hmethod, hm, hwhole⟩ := (hdeclared p t hp).2 "fetch" (by decide)
  exact ⟨⟨p, method, m, hp, hmethod, hm, hwhole⟩,
    hrefused ∅ ⟨"fetch", sourceWith "" "cache"⟩ [⟨"fetch", whole⟩]
      (.inMethod "fetch" (.invalidKind "")) t t (by rfl)⟩

end Program

end TaintFlow
