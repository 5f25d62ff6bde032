import TaintFlow.Analysis
import TaintFlow.Proofs.Hits
import TaintFlow.Proofs.Programs

/-!
Kinds of declared models. The table of kinds only grows while programs and models are read, so that
every kind that a declared model mentions is in the table that loading leaves
(`Program.DeclaredIn`). A declared frame is that of a kind, without transforms and sanitizers, and
has no trace yet.
-/

namespace TaintFlow

def Frame.DeclaredIn (size : Nat) (f : Frame) (info : FrameInfo) : Prop :=
  (∃ id : KindId, id.index < size ∧ f = .ofKind id) ∧ info.trace = []

def Contract.declared (size : Nat) : Contract where
  name _ := True
  origin _ := True
  frame := Frame.DeclaredIn size
  port _ := True
  source := Frame.DeclaredIn size
  sink := Frame.DeclaredIn size
  propagation p := (∀ k ∈ p.transforms, k.index < size) ∧ ∀ k ∈ p.sanitizers, k.index < size
  effect k := k.index < size

def Program.DeclaredIn (p : Program) (size : Nat) : Prop :=
  ∀ m ∈ p.methods, ∀ model, m.declared = some model → model.Meets (.declared size)

namespace Contract

variable {size size' : Nat}

theorem joins_declaredIn : FrameSet.Joins (Frame.DeclaredIn size) := by
  rintro f i j ⟨hf, hi⟩ ⟨-, hj⟩
  exact ⟨hf, (FrameInfo.trace_join i j).elim (·.trans hi) (·.trans hj)⟩

theorem closed_declared (depth : Nat) : (declared size).Closed depth where
  frames := joins_declaredIn
  sources := joins_declaredIn
  sinks := joins_declaredIn
  below _ hf := by
    obtain ⟨⟨id, hid, rfl⟩, htrace⟩ := hf
    exact ⟨⟨id, hid, rfl⟩, htrace⟩
  mark _ hf := hf

theorem source_declared_mono (hle : size ≤ size') (f : Frame) (info : FrameInfo) :
    (declared size).source f info → (declared size').source f info := by
  rintro ⟨⟨id, hid, hf⟩, htrace⟩
  exact ⟨⟨id, Nat.lt_of_lt_of_le hid hle, hf⟩, htrace⟩

theorem propagation_declared_mono (hle : size ≤ size') (p : Propagation) :
    (declared size).propagation p → (declared size').propagation p := by
  rintro ⟨htransforms, hsanitizers⟩
  exact ⟨fun k hk => Nat.lt_of_lt_of_le (htransforms k hk) hle,
    fun k hk => Nat.lt_of_lt_of_le (hsanitizers k hk) hle⟩

end Contract

theorem Model.Meets.declared_mono {m : Model} {size size' : Nat} (hle : size ≤ size')
    (hm : m.Meets (.declared size)) : m.Meets (.declared size') :=
  hm.mono (fun _ h => h) (Contract.source_declared_mono hle) (Contract.source_declared_mono hle)
    (Contract.propagation_declared_mono hle) fun _ h => Nat.lt_of_lt_of_le h hle

/-! ### Readings and the tables that they leave -/

theorem KindTable.intern_grows (t : KindTable) (kind : Kind) :
    t.size ≤ (t.intern kind).2.size ∧ (t.intern kind).1.index < (t.intern kind).2.size := by
  unfold intern
  split
  · next id hid => exact ⟨Nat.le_refl _, Matcher.index_lt_of_find? hid⟩
  · simp [size]

namespace Interning

variable {α β : Type} {n : Nat} {P : Nat → α → Prop} {Q : Nat → β → Prop}

/-- Of a table of at least `n` kinds, whatever a reading accepts has a property with the size of the
table that it leaves, and that table is no smaller. -/
def Leaves (n : Nat) (m : Interning α) (P : Nat → α → Prop) : Prop :=
  ∀ t a t', n ≤ t.size → m.runOn t = (.ok a, t') → n ≤ t'.size ∧ P t'.size a

def Grows (P : Nat → α → Prop) : Prop := ∀ n n' a, n ≤ n' → P n a → P n' a

theorem leaves_pure {a : α} (h : ∀ n' ≥ n, P n' a) : Leaves n (pure a) P := by
  intro t b t' hn hb
  cases hb
  exact ⟨hn, h _ hn⟩

theorem leaves_throw {e : ConfigError} : Leaves n (throw e) P := by
  intro t a t' _ h
  cases h

theorem leaves_bind {m : Interning α} {f : α → Interning β} (hm : Leaves n m P)
    (hf : ∀ n' ≥ n, ∀ a, P n' a → Leaves n' (f a) Q) : Leaves n (m >>= f) Q := by
  intro t b t' hn hb
  obtain ⟨a, t₁, ha, hb⟩ := runOn_bind_eq_ok_iff.1 hb
  obtain ⟨hle, hPa⟩ := hm t a t₁ hn ha
  obtain ⟨hle', hQ⟩ := hf t₁.size hle a hPa t₁ b t' (Nat.le_refl _) hb
  exact ⟨Nat.le_trans hle hle', hQ⟩

/-- A reading that does not touch the table. -/
theorem leaves_lift (e : Except ConfigError α) : Leaves n (liftM e) fun _ a => e = .ok a := by
  cases e with
  | ok a => exact leaves_pure fun _ _ => rfl
  | error cause => exact leaves_throw

/-- A reading whose refusals are put in other words. -/
theorem leaves_rethrow {m : Interning α} (hm : Leaves n m P) (word : ConfigError → ConfigError) :
    Leaves n (tryCatch m fun cause => throw (word cause)) P :=
  fun t a t' hn h => hm t a t' hn (runOn_rethrow_eq_ok_iff.1 h)

theorem leaves_foldlM {f : β → α → Interning β} (hQ : Grows Q)
    (h : ∀ n b a, Q n b → Leaves n (f b a) Q) (as : List α) {b : β} (hb : Q n b) :
    Leaves n (as.foldlM f b) Q := by
  induction as generalizing b n with
  | nil => exact leaves_pure fun n' hle => hQ n n' b hle hb
  | cons a as ih =>
    rw [List.foldlM_cons]
    exact leaves_bind (h n b a hb) fun _ _ _ => ih

theorem leaves_mapM {f : α → Interning β} (hQ : Grows Q) (h : ∀ n a, Leaves n (f a) Q)
    (as : List α) : Leaves n (as.mapM f) fun n bs => ∀ b ∈ bs, Q n b := by
  induction as generalizing n with
  | nil => exact leaves_pure fun _ _ => nofun
  | cons a as ih =>
    rw [List.mapM_cons]
    refine leaves_bind (h n a) fun n₁ _ b hb => leaves_bind ih fun n₂ hle bs hbs => ?_
    refine leaves_pure fun n' hle' => List.forall_mem_cons.2 ⟨?_, fun b hb => ?_⟩
    · exact hQ n₁ n' b (Nat.le_trans hle hle') hb
    · exact hQ n₂ n' b hle' (hbs b hb)

theorem leaves_internValid (names : List String) (kind : Kind) :
    Leaves n (internValid names kind) fun n id => id.index < n := by
  unfold internValid
  split
  · exact leaves_throw
  · intro t id t' hn h
    obtain ⟨hid, ht⟩ := Prod.mk.inj h
    cases hid
    obtain ⟨hle, hlt⟩ := t.intern_grows kind
    exact ht ▸ ⟨Nat.le_trans hn hle, hlt⟩

theorem grows_index : Grows fun n (id : KindId) => id.index < n :=
  fun _ _ _ hle h => Nat.lt_of_lt_of_le h hle

theorem leaves_namedAll (names : List String) :
    Leaves n (namedAll names) fun n ids => ∀ id ∈ ids, id.index < n :=
  leaves_mapM grows_index (fun _ _ => leaves_internValid _ _) names

end Interning

/-! ### Models -/

namespace Model

open Interning

variable {n : Nat}

def Declares (n : Nat) (e : Port × Frame × FrameInfo) : Prop := e.2.1.DeclaredIn n e.2.2

theorem grows_declares : Grows Declares :=
  fun _ _ e hle => Contract.source_declared_mono hle e.2.1 e.2.2

theorem grows_propagation : Grows fun n => (Contract.declared n).propagation :=
  fun _ _ p hle => Contract.propagation_declared_mono hle p

theorem leaves_declaredFrame {m : Interning KindId} (hm : Leaves n m fun n id => id.index < n)
    (port : Port) (features : List String) :
    Leaves n (do return (port, .ofKind (← m), .ofFeatures features)) Declares :=
  leaves_bind hm fun _ _ id hid => leaves_pure fun _ hle =>
    ⟨⟨id, Nat.lt_of_lt_of_le hid hle, rfl⟩, rfl⟩

theorem leaves_declaredSource (d : SourceDeclaration) : Leaves n (declaredSource d) Declares :=
  leaves_declaredFrame (leaves_internValid _ _) _ _

theorem leaves_declaredParameterSource (d : SourceDeclaration) :
    Leaves n (declaredParameterSource d) Declares :=
  leaves_bind (leaves_lift _) fun _ _ _ _ => leaves_declaredSource d

theorem leaves_declaredSink (d : SinkDeclaration) : Leaves n (declaredSink d) Declares := by
  refine leaves_bind (leaves_lift _) fun _ _ _ _ => ?_
  cases d.label with
  | some label => exact leaves_declaredFrame (leaves_internValid _ _) _ _
  | none => exact leaves_declaredFrame (leaves_internValid _ _) _ _

theorem leaves_declaredPropagation (d : PropagationDeclaration) :
    Leaves n (declaredPropagation d) fun n => (Contract.declared n).propagation := by
  refine leaves_bind (leaves_lift _) fun _ _ _ _ => ?_
  refine leaves_bind (leaves_namedAll _) fun n₁ _ transforms htransforms => ?_
  refine leaves_bind (leaves_namedAll _) fun n₂ hle sanitizers hsanitizers => ?_
  refine leaves_pure fun n' hle' => ⟨fun k hk => ?_, fun k hk => ?_⟩
  · exact Nat.lt_of_lt_of_le (htransforms k hk) (Nat.le_trans hle hle')
  · exact Nat.lt_of_lt_of_le (hsanitizers k (OrdSet.mem_ofList.1 hk)) hle'

theorem leaves_ofDeclaration (d : ModelDeclaration) :
    Leaves n (ofDeclaration d) fun n m => m.Meets (.declared n) := by
  refine leaves_bind (leaves_mapM grows_declares (fun _ => leaves_declaredSource) _)
    fun n₁ _ generations hgenerations => ?_
  refine leaves_bind (leaves_mapM grows_declares (fun _ => leaves_declaredParameterSource) _)
    fun n₂ h₂ parameterSources hparameterSources => ?_
  refine leaves_bind (leaves_mapM grows_declares (fun _ => leaves_declaredSink) _)
    fun n₃ h₃ sinks hsinks => ?_
  refine leaves_bind (leaves_mapM grows_propagation (fun _ => leaves_declaredPropagation) _)
    fun n₄ h₄ propagations hpropagations => ?_
  refine leaves_bind (leaves_namedAll _) fun n₅ h₅ effectSources heffectSources => ?_
  refine leaves_pure fun n h => ?_
  have hframes {frames : List (Port × Frame × FrameInfo)} {n' : Nat} (hle : n' ≤ n)
      (hall : ∀ e ∈ frames, Declares n' e) :
      (ofFrames frames).MadeOf (fun _ => True) (Frame.DeclaredIn n) :=
    madeOf_ofFrames Contract.joins_declaredIn fun e he =>
      ⟨trivial, grows_declares n' n e hle (hall e he)⟩
  constructor
  · exact hframes (by omega) hgenerations
  · exact hframes (by omega) hparameterSources
  · exact hframes (by omega) hsinks
  · exact fun p hp => grows_propagation n₄ n p (by omega) (hpropagations p (OrdSet.mem_ofList.1 hp))
  · exact fun k hk => Nat.lt_of_lt_of_le (heffectSources k (OrdSet.mem_ofList.1 hk)) h

end Model

/-! ### Programs -/

namespace Program

open Interning

variable {n : Nat} {p : Program}

theorem grows_declaredIn : Grows fun n (p : Program) => p.DeclaredIn n :=
  fun _ _ _ hle hp m hm model hmodel => (hp m hm model hmodel).declared_mono hle

theorem declaredIn_empty : (∅ : Program).DeclaredIn n := nofun

theorem DeclaredIn.push (hp : p.DeclaredIn n) (name : String) (parameters : List String)
    (body : Option Body) {declared : Option Model}
    (h : ∀ model, declared = some model → model.Meets (.declared n)) :
    (p.push name parameters body declared).DeclaredIn n := by
  intro m hm
  rcases List.mem_append.1 hm with hm | hm
  · exact hp m hm
  · obtain rfl := List.mem_singleton.1 hm
    exact h

theorem DeclaredIn.joinDeclared (hp : p.DeclaredIn n) (name : String) {model : Model}
    (h : model.Meets (.declared n)) : (p.joinDeclared name model).DeclaredIn n := by
  unfold Program.joinDeclared
  split
  · intro m hm model' hmodel'
    obtain ⟨own, hown, rfl⟩ := List.mem_map.1 hm
    split at hmodel'
    · cases hmodel'
      have hdeclared : (own.declared.getD ∅).Meets (.declared n) := by
        cases hmodel : own.declared with
        | none => exact .empty
        | some declared => exact hp own hown declared hmodel
      exact hdeclared.join (Contract.closed_declared 0) h
    · exact hp own hown model' hmodel'
  · exact hp.push name [] none fun model' hmodel' => Option.some.inj hmodel' ▸ h

theorem leaves_declaredModel (name : String) (d : ModelDeclaration) :
    Leaves n (declaredModel name d) fun n model => model.Meets (.declared n) :=
  leaves_rethrow (Model.leaves_ofDeclaration d) _

theorem leaves_addMethod (hp : p.DeclaredIn n) (d : MethodDocument) :
    Leaves n (p.addMethod d) fun n p => p.DeclaredIn n := by
  have hread : Leaves n (d.model.mapM (declaredModel d.name)) fun n declared =>
      ∀ model, declared = some model → model.Meets (.declared n) := by
    cases d.model with
    | none => exact leaves_pure fun _ _ => nofun
    | some model =>
      refine leaves_bind (leaves_declaredModel d.name model) fun n₁ _ model hmodel => ?_
      exact leaves_pure fun n' hle m hm => Option.some.inj hm ▸ hmodel.declared_mono hle
  unfold addMethod
  split
  · exact leaves_bind (P := fun _ _ => False) leaves_throw fun _ _ _ => False.elim
  · refine leaves_bind hread fun n₁ h₁ declared hdeclared => leaves_pure fun n' hle => ?_
    refine (grows_declaredIn n n' p (Nat.le_trans h₁ hle) hp).push _ _ _ fun model hmodel => ?_
    exact (hdeclared model hmodel).declared_mono hle

/-- The declared models of a document mention kinds of the table that reading it leaves. -/
theorem leaves_ofDocument (d : ProgramDocument) :
    Leaves n (ofDocument d) fun n p => p.DeclaredIn n :=
  leaves_foldlM grows_declaredIn (fun _ _ d hp => leaves_addMethod hp d) d declaredIn_empty

/-- So do those of model files. -/
theorem leaves_addModels (hp : p.DeclaredIn n) (ds : List MethodModel) :
    Leaves n (p.addModels ds) fun n p => p.DeclaredIn n :=
  leaves_foldlM grows_declaredIn (fun _ _ d hp =>
    leaves_bind (leaves_declaredModel d.method d.model) fun _ hle _ hmodel =>
      leaves_pure fun n' hle' => (grows_declaredIn _ n' _ (Nat.le_trans hle hle') hp).joinDeclared
        d.method (hmodel.declared_mono hle')) ds hp

end Program

/-! ### An example -/

/-- What is read goes to another method, which shows it. -/
def echoDocument : ProgramDocument :=
  [⟨"read", [], none, some ⟨[⟨"Input", .result, []⟩], [], [], [], []⟩⟩,
    ⟨"show", ["x"], none, some ⟨[], [], [⟨"Output", .argument 0, none, []⟩], [], []⟩⟩,
    ⟨"echo", ["x"], some (.run ⟨(), none⟩ (.call "show" ["x"] none) .done), none⟩,
    ⟨"main", [], some (.run ⟨(), none⟩ (.call "read" [] (some "x"))
      (.run ⟨(), none⟩ (.call "echo" ["x"] none) .done)), none⟩]

def echo : Analysis :=
  match (Program.ofDocument echoDocument).runOn ∅ with
  | (.ok program, kinds) => ⟨program, (∅ : RuleSet).push
      ⟨"shown", 1, "", .direct (OrdSet.ofList [⟨0⟩]) (OrdSet.ofList [⟨1⟩]), none, none⟩, kinds, {}⟩
  | (.error _, kinds) => ⟨∅, ∅, kinds, {}⟩

theorem echo_loaded : (Program.ofDocument echoDocument).runOn ∅ = (.ok echo.program, echo.kinds) := by
  rfl

theorem echo_wellFormed : echo.program.WellFormed :=
  Program.yields_ofDocument echoDocument ∅ _ _ echo_loaded

theorem echo_declaredIn : echo.program.DeclaredIn echo.kinds.size :=
  (Program.leaves_ofDocument echoDocument ∅ _ _ (Nat.le_refl 0) echo_loaded).2

end TaintFlow
