import Mathlib.Data.List.Nodup
import TaintFlow.Program
import TaintFlow.Proofs.Containers

/-!
Programs as they are loaded. The id of a method is its place in the program, and no two methods
have the same name (`Program.WellFormed`), so that ids and names are two ways of naming the same
methods. Documents and model files lead to no other programs.
-/

namespace TaintFlow

namespace Program

/-- Ids are places, and names are distinct. -/
structure WellFormed (p : Program) : Prop where
  ids : ∀ (i : Nat) (m : Method), p.methods[i]? = some m → m.id = ⟨i⟩
  names : (p.methods.map Method.name).Nodup

variable {p : Program}

theorem mem_of_method? {id : MethodId} {m : Method} (h : p.method? id = some m) :
    m ∈ p.methods :=
  List.mem_of_getElem? h

theorem mem_of_lookup {name : String} {m : Method} (h : p.lookup name = some m) :
    m ∈ p.methods ∧ m.name = name :=
  ⟨List.mem_of_find?_eq_some h, by simpa using List.find?_some h⟩

namespace WellFormed

variable (hp : p.WellFormed)

include hp

theorem id_of_method? {id : MethodId} {m : Method} (h : p.method? id = some m) : m.id = id :=
  hp.ids id.index m h

theorem method?_id {m : Method} (h : m ∈ p.methods) : p.method? m.id = some m := by
  obtain ⟨i, hi⟩ := List.mem_iff_getElem?.1 h
  rw [hp.ids i m hi]
  exact hi

theorem eq_of_id {m m' : Method} (h : m ∈ p.methods) (h' : m' ∈ p.methods) (hid : m.id = m'.id) :
    m = m' := by
  have hm := hp.method?_id h
  rw [hid, hp.method?_id h'] at hm
  exact (Option.some.inj hm).symm

theorem lookup_name {m : Method} (h : m ∈ p.methods) : p.lookup m.name = some m := by
  cases hfind : p.lookup m.name with
  | none => exact absurd (List.find?_eq_none.1 hfind m h) (by simp)
  | some m' =>
    obtain ⟨h', hname⟩ := mem_of_lookup hfind
    rw [List.inj_on_of_nodup_map hp.names h' h hname]

theorem eq_of_name {m m' : Method} (h : m ∈ p.methods) (h' : m' ∈ p.methods)
    (hname : m.name = m'.name) : m = m' :=
  List.inj_on_of_nodup_map hp.names h h' hname

theorem nameOf_id {m : Method} (h : m ∈ p.methods) : p.nameOf m.id = m.name := by
  rw [nameOf, hp.method?_id h]
  rfl

theorem pairwise_ids : p.methods.Pairwise fun m m' => m.id.index < m'.id.index := by
  rw [List.pairwise_iff_getElem]
  intro i j hi hj hij
  rw [hp.ids i _ (List.getElem?_eq_getElem hi), hp.ids j _ (List.getElem?_eq_getElem hj)]
  exact hij

/-- The methods, listed by id. -/
theorem ascending_ids {α : Type} (f : Method → α) (keep : Method → Bool) :
    Ascending ((p.methods.filter keep).map fun m => (m.id, f m)) := by
  rw [Ascending, List.pairwise_map]
  exact (hp.pairwise_ids.filter keep).imp fun h => Nat.compare_eq_lt.2 h

theorem nodup_ids : p.ids.Nodup := by
  rw [Program.ids, List.Nodup, List.pairwise_map]
  refine hp.pairwise_ids.imp fun {m m'} h heq => ?_
  rw [heq] at h
  exact Nat.lt_irrefl _ h

theorem push {name : String} (hname : p.lookup name = none) (parameters : List String)
    (body : Option Body) (declared : Option Model) :
    (p.push name parameters body declared).WellFormed where
  ids i m h := by
    rw [Program.push, List.getElem?_append] at h
    split at h
    · exact hp.ids i m h
    · next hi =>
      obtain ⟨hzero, rfl⟩ : i - p.methods.length = 0 ∧ _ = m := by
        simpa [List.getElem?_singleton] using h
      have : i = p.size := by
        show i = p.methods.length
        omega
      rw [this]
  names := by
    rw [Program.push, List.map_append, List.nodup_append]
    refine ⟨hp.names, List.nodup_singleton _, fun a ha b hb hab => ?_⟩
    obtain ⟨m, hm, rfl⟩ := List.mem_map.1 ha
    obtain rfl : b = name := by simpa using hb
    exact absurd (List.find?_eq_none.1 hname m hm) (by simp [hab])

theorem update {name : String} {f : Method → Method} (hid : ∀ m, (f m).id = m.id)
    (hname : ∀ m, (f m).name = m.name) : (p.update name f).WellFormed where
  ids i m h := by
    rw [Program.update, List.getElem?_map] at h
    obtain ⟨m', hm', rfl⟩ := Option.map_eq_some_iff.1 h
    split
    · rw [hid, hp.ids i m' hm']
    · exact hp.ids i m' hm'
  names := by
    have hmap : ((p.update name f).methods.map Method.name) = p.methods.map Method.name := by
      rw [Program.update, List.map_map]
      refine List.map_congr_left fun m _ => ?_
      simp only [Function.comp_apply]
      split
      · exact hname m
      · rfl
    rw [hmap]
    exact hp.names

theorem joinDeclared (name : String) (model : Model) :
    (p.joinDeclared name model).WellFormed := by
  rw [Program.joinDeclared]
  split
  · exact hp.update (fun _ => rfl) fun _ => rfl
  · next h => exact hp.push (by simpa using h) _ _ _

end WellFormed

theorem wellFormed_empty : (∅ : Program).WellFormed where
  ids _ _ h := by cases h
  names := List.nodup_nil

end Program

namespace Interning

variable {α β : Type}

/-- Whatever a reading accepts satisfies a property. -/
def Yields (m : Interning α) (P : α → Prop) : Prop :=
  ∀ t a t', m.runOn t = (.ok a, t') → P a

theorem yields_pure {a : α} {P : α → Prop} (h : P a) : Yields (pure a) P := by
  intro t b t' hb
  cases hb
  exact h

theorem runOn_bind (m : Interning α) (f : α → Interning β) (t : KindTable) :
    (m >>= f).runOn t =
      match m.runOn t with
      | (.ok a, t) => (f a).runOn t
      | (.error e, t) => (.error e, t) := by
  show (ExceptT.run (m >>= f)).run t = _
  rw [runOn, ExceptT.run_bind, StateT.run_bind]
  cases (ExceptT.run m).run t with
  | mk r t₁ => cases r <;> rfl

theorem runOn_tryCatch (m : Interning α) (f : ConfigError → Interning α)
    (t : KindTable) : runOn t (tryCatch m f) =
      match m.runOn t with
      | (.ok a, t) => (.ok a, t)
      | (.error cause, t) => (f cause).runOn t := by
  show (ExceptT.run (tryCatch m f)).run t = _
  rw [runOn, ExceptT.run_tryCatch, StateT.run_bind]
  cases (ExceptT.run m).run t with
  | mk r t₁ => cases r <;> rfl

/-- A refusal may be put in other words. -/
theorem runOn_rethrow (m : Interning α) (word : ConfigError → ConfigError) (t : KindTable) :
    runOn t (tryCatch m fun cause => throw (word cause)) =
      match m.runOn t with
      | (.ok a, t) => (.ok a, t)
      | (.error cause, t) => (.error (word cause), t) :=
  runOn_tryCatch m _ t

/-- A reading in two parts is accepted where both are, the second on the table the first leaves. -/
theorem runOn_bind_eq_ok_iff {m : Interning α} {f : α → Interning β} {t t₂ : KindTable} {b : β} :
    (m >>= f).runOn t = (.ok b, t₂) ↔
      ∃ a t₁, m.runOn t = (.ok a, t₁) ∧ (f a).runOn t₁ = (.ok b, t₂) := by
  rw [runOn_bind]
  rcases m.runOn t with ⟨e | a, t₁⟩ <;> simp

/-- Other words for a refusal change nothing in what is accepted. -/
theorem runOn_rethrow_eq_ok_iff {m : Interning α} {word : ConfigError → ConfigError}
    {t t' : KindTable} {a : α} :
    runOn t (tryCatch m fun cause => throw (word cause)) = (.ok a, t') ↔
      m.runOn t = (.ok a, t') := by
  rw [runOn_rethrow]
  rcases m.runOn t with ⟨e | b, t₁⟩ <;> simp

theorem yields_bind {m : Interning α} {f : α → Interning β} {P : α → Prop} {Q : β → Prop}
    (hm : m.Yields P) (hf : ∀ a, P a → (f a).Yields Q) : Yields (m >>= f) Q := by
  intro t b t' hb
  obtain ⟨a, t₁, ha, hb⟩ := runOn_bind_eq_ok_iff.1 hb
  exact hf a (hm t a t₁ ha) t₁ b t' hb

theorem yields_true (m : Interning α) : m.Yields fun _ => True := fun _ _ _ _ => trivial

theorem yields_throw {e : ConfigError} {P : α → Prop} : Yields (throw e) P := by
  intro t a t' h
  cases h

/-- A reading after a check, which throws or does nothing. -/
theorem yields_guard {c : Prop} [Decidable c] {e : ConfigError} {m : Interning α} {P : α → Prop}
    (hm : ¬ c → m.Yields P) : Yields (do
      if c then throw e
      m) P := by
  split
  · exact yields_bind (P := fun _ => False) yields_throw fun _ => False.elim
  · next hc => exact hm hc

theorem yields_foldlM {f : β → α → Interning β} {P : β → Prop}
    (h : ∀ b a, P b → Yields (f b a) P) (as : List α) {b : β} (hb : P b) :
    Yields (as.foldlM f b) P := by
  induction as generalizing b with
  | nil => exact yields_pure hb
  | cons a as ih =>
    rw [List.foldlM_cons]
    exact yields_bind (h b a hb) fun _ => ih

end Interning

namespace Program

open Interning

theorem yields_addMethod {p : Program} (hp : p.WellFormed) (d : MethodDocument) :
    (p.addMethod d).Yields WellFormed :=
  yields_guard fun hnew => yields_bind (yields_true _) fun _ _ =>
    yields_pure (hp.push (by simpa using hnew) _ _ _)

/-- A document leads to a well-formed program. -/
theorem yields_ofDocument (d : ProgramDocument) : (ofDocument d).Yields WellFormed :=
  yields_foldlM (fun _ d hp => yields_addMethod hp d) d wellFormed_empty

/-- Model files keep a program well-formed. -/
theorem yields_addModels {p : Program} (hp : p.WellFormed) (ds : List MethodModel) :
    (p.addModels ds).Yields WellFormed :=
  yields_foldlM
    (fun _ d hp => yields_bind (yields_true _) fun model _ =>
      yields_pure (hp.joinDeclared d.method model)) ds hp

end Program

end TaintFlow
