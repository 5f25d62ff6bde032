import TaintFlow.Proofs.Programs

/-!
Reading again when the kinds are known. A table of kinds only grows at its end, and a kind that a
table holds keeps its id in every table that begins with it. So what a reading accepts is accepted
again from any table that begins with the one it left, with the same outcome and without a new kind
(`Interning.Steady`). `Interning.Rereads` says so of two readings with related outcomes.
-/

namespace TaintFlow

namespace KindTable

def Starts (t t' : KindTable) : Prop := t.kinds <+: t'.kinds

variable {t t' t'' : KindTable}

theorem Starts.refl (t : KindTable) : t.Starts t := List.prefix_rfl

theorem Starts.trans (h : t.Starts t') (h' : t'.Starts t'') : t.Starts t'' :=
  List.IsPrefix.trans h h'

theorem starts_intern (t : KindTable) (kind : Kind) : t.Starts (t.intern kind).2 := by
  unfold intern
  split
  · exact .refl t
  · exact List.prefix_append _ _

theorem find?_of_starts {kind : Kind} {id : KindId} (h : t.Starts t')
    (hid : t.find? kind = some id) : t'.find? kind = some id := by
  obtain ⟨rest, hrest⟩ := h
  obtain ⟨i, hi, rfl⟩ := Option.map_eq_some_iff.1 hid
  rw [find?, ← hrest, List.idxOf?, List.findIdx?_append, ← List.idxOf?, hi]
  rfl

/-- An interned kind is found. -/
theorem find?_intern (t : KindTable) (kind : Kind) :
    (t.intern kind).2.find? kind = some (t.intern kind).1 := by
  unfold intern
  split
  · next id hid => exact hid
  · next hnone =>
    rw [find?, Option.map_eq_none_iff, List.idxOf?] at hnone
    rw [find?, List.idxOf?, List.findIdx?_append, hnone]
    simp [List.findIdx?_cons, size]

/-- A kind that was interned once keeps its id, and interning it again adds nothing. -/
theorem intern_of_starts {kind : Kind} (h : (t.intern kind).2.Starts t') :
    t'.intern kind = ((t.intern kind).1, t') := by
  rw [intern, find?_of_starts h (t.find?_intern kind)]

end KindTable

namespace Interning

variable {α β γ δ : Type} {R : α → β → Prop} {S : γ → δ → Prop}

/-- What one reading accepts another accepts, with a related outcome, where the kinds that the first
one interned are known. The other interns nothing then. -/
def Rereads (R : α → β → Prop) (m : Interning α) (m' : Interning β) : Prop :=
  ∀ t a t', m.runOn t = (.ok a, t') →
    t.Starts t' ∧ ∃ b, R a b ∧ ∀ t'', t'.Starts t'' → m'.runOn t'' = (.ok b, t'')

/-- A reading that comes to the same where its kinds are known. -/
def Steady (m : Interning α) : Prop := Rereads Eq m m

theorem rereads_pure {a : α} {b : β} (h : R a b) : Rereads R (pure a) (pure b) := by
  intro t a' t' hrun
  cases hrun
  exact ⟨.refl t, b, h, fun _ _ => rfl⟩

theorem rereads_throw {e : ConfigError} {m : Interning β} : Rereads R (throw e) m := by
  intro t a t' hrun
  cases hrun

theorem rereads_bind {m : Interning α} {m' : Interning β} {f : α → Interning γ}
    {f' : β → Interning δ} (hm : Rereads R m m') (hf : ∀ a b, R a b → Rereads S (f a) (f' b)) :
    Rereads S (m >>= f) (m' >>= f') := by
  intro t c t₂ hrun
  obtain ⟨a, t₁, ha, hc⟩ := runOn_bind_eq_ok_iff.1 hrun
  obtain ⟨hfirst, b, hab, hknown⟩ := hm t a t₁ ha
  obtain ⟨hrest, d, hcd, hknown'⟩ := hf a b hab t₁ c t₂ hc
  refine ⟨hfirst.trans hrest, d, hcd, fun t₃ hlater => ?_⟩
  exact runOn_bind_eq_ok_iff.2 ⟨b, t₃, hknown t₃ (hrest.trans hlater), hknown' t₃ hlater⟩

/-- What only adds kinds may be left out. -/
theorem rereads_skip {m : Interning α} {f : α → Interning γ} {m' : Interning δ} (hm : Steady m)
    (hf : ∀ a, Rereads S (f a) m') : Rereads S (m >>= f) m' := by
  intro t c t₂ hrun
  obtain ⟨a, t₁, ha, hc⟩ := runOn_bind_eq_ok_iff.1 hrun
  obtain ⟨hrest, hknown⟩ := hf a t₁ c t₂ hc
  exact ⟨(hm t a t₁ ha).1.trans hrest, hknown⟩

theorem rereads_foldlM {ι : Type} {f : α → ι → Interning α} {f' : β → ι → Interning β}
    (hstep : ∀ a b i, R a b → Rereads R (f a i) (f' b i)) (is : List ι) {a : α} {b : β}
    (h : R a b) : Rereads R (is.foldlM f a) (is.foldlM f' b) := by
  induction is generalizing a b with
  | nil => exact rereads_pure h
  | cons i is ih =>
    rw [List.foldlM_cons, List.foldlM_cons]
    exact rereads_bind (hstep a b i h) fun _ _ => ih

/-- Some of the steps over a list may be left out, where leaving one out keeps the outcomes
related. -/
theorem rereads_foldlM_filter {ι : Type} {f : α → ι → Interning α} {f' : β → ι → Interning β}
    {keep : ι → Bool} (hkept : ∀ a b i, keep i = true → R a b → Rereads R (f a i) (f' b i))
    (hdropped : ∀ a b i, keep i = false → R a b → Rereads R (f a i) (pure b)) (is : List ι)
    {a : α} {b : β} (h : R a b) :
    Rereads R (is.foldlM f a) ((is.filter keep).foldlM f' b) := by
  induction is generalizing a b with
  | nil => exact rereads_pure h
  | cons i is ih =>
    rw [List.foldlM_cons]
    cases hi : keep i with
    | true =>
      rw [List.filter_cons_of_pos hi, List.foldlM_cons]
      exact rereads_bind (hkept a b i hi h) fun _ _ => ih
    | false =>
      rw [List.filter_cons_of_neg (by simp [hi]),
        ← pure_bind b fun b => (is.filter keep).foldlM f' b]
      exact rereads_bind (hdropped a b i hi h) fun _ _ => ih

/-! ### Steady readings -/

theorem steady_pure (a : α) : Steady (pure a) := rereads_pure rfl

theorem steady_bind {m : Interning α} {f : α → Interning β} (hm : Steady m)
    (hf : ∀ a, Steady (f a)) : Steady (m >>= f) :=
  rereads_bind hm fun a _ hab => hab ▸ hf a

/-- A reading that does not touch the table. -/
theorem steady_lift (e : Except ConfigError α) : Steady (liftM e) := by
  cases e with
  | ok a => exact steady_pure a
  | error cause => exact rereads_throw

theorem steady_rethrow {m : Interning α} (hm : Steady m) (word : ConfigError → ConfigError) :
    Steady (tryCatch m fun cause => throw (word cause)) := by
  intro t a t' hrun
  obtain ⟨hfirst, b, hab, hknown⟩ := hm t a t' (runOn_rethrow_eq_ok_iff.1 hrun)
  exact ⟨hfirst, b, hab, fun t'' hlater => runOn_rethrow_eq_ok_iff.2 (hknown t'' hlater)⟩

theorem steady_mapM {f : α → Interning β} (hf : ∀ a, Steady (f a)) (as : List α) :
    Steady (as.mapM f) := by
  induction as with
  | nil => exact steady_pure []
  | cons a as ih =>
    rw [List.mapM_cons]
    exact steady_bind (hf a) fun _ => steady_bind ih fun _ => steady_pure _

theorem steady_mapM_option {f : α → Interning β} (hf : ∀ a, Steady (f a)) (a? : Option α) :
    Steady (a?.mapM f) := by
  cases a? with
  | none => exact steady_pure none
  | some a => exact steady_bind (hf a) fun _ => steady_pure _

theorem steady_internValid (names : List String) (kind : Kind) :
    Steady (internValid names kind) := by
  unfold internValid
  split
  · exact rereads_throw
  · intro t id t' hrun
    obtain ⟨hid, rfl⟩ : Except.ok (t.intern kind).1 = .ok id ∧ (t.intern kind).2 = t' :=
      Prod.mk.inj hrun
    cases hid
    refine ⟨t.starts_intern kind, _, rfl, fun t'' hlater => ?_⟩
    have hknown := KindTable.intern_of_starts hlater
    show (Except.ok (t''.intern kind).1, (t''.intern kind).2) = _
    rw [hknown]

theorem steady_namedAll (names : List String) : Steady (namedAll names) :=
  steady_mapM (fun _ => steady_internValid _ _) names

end Interning

/-! ### Models -/

namespace Model

open Interning

theorem steady_declaredSource (d : SourceDeclaration) : Steady (declaredSource d) :=
  steady_bind (steady_internValid _ _) fun _ => steady_pure _

theorem steady_declaredParameterSource (d : SourceDeclaration) :
    Steady (declaredParameterSource d) :=
  steady_bind (steady_lift _) fun _ => steady_declaredSource d

theorem steady_declaredSink (d : SinkDeclaration) : Steady (declaredSink d) := by
  refine steady_bind (steady_lift _) fun _ => ?_
  cases d.label with
  | none => exact steady_bind (steady_internValid _ _) fun _ => steady_pure _
  | some label => exact steady_bind (steady_internValid _ _) fun _ => steady_pure _

theorem steady_declaredPropagation (d : PropagationDeclaration) :
    Steady (declaredPropagation d) :=
  steady_bind (steady_lift _) fun _ => steady_bind (steady_namedAll _) fun _ =>
    steady_bind (steady_namedAll _) fun _ => steady_pure _

/-- A declaration has the same model wherever its kinds are known. -/
theorem steady_ofDeclaration (d : ModelDeclaration) : Steady (ofDeclaration d) :=
  steady_bind (steady_mapM steady_declaredSource _) fun _ =>
    steady_bind (steady_mapM steady_declaredParameterSource _) fun _ =>
      steady_bind (steady_mapM steady_declaredSink _) fun _ =>
        steady_bind (steady_mapM steady_declaredPropagation _) fun _ =>
          steady_bind (steady_namedAll _) fun _ => steady_pure _

end Model

theorem Program.steady_declaredModel (method : String) (d : ModelDeclaration) :
    Interning.Steady (declaredModel method d) :=
  Interning.steady_rethrow (Model.steady_ofDeclaration d) (.inMethod method)

end TaintFlow
