import TaintFlow.Proofs.Programs

/-!
Which readings are accepted. It does not depend on the table whether a reading is accepted: a
reading of several parts is accepted if all of them are (`Interning.Accepts`), and one that interns
a kind if the parts of its name may name kinds (`IsKindName`). Where the table holds all kinds that
are read, a reading leaves it as it is and comes to one outcome, unless it is refused
(`Interning.Keeps`).
-/

namespace TaintFlow

def IsKindName (name : String) : Prop :=
  name ≠ "" ∧ ∀ c ∈ name.toList, c ≠ ':' ∧ Text.isBlank c = false ∧ Text.isControl c = false

theorem validKindName_iff {name : String} : validKindName name = true ↔ IsKindName name := by
  simp [validKindName, IsKindName, and_assoc]

namespace Interning

variable {α β : Type} {P Q : Prop}

/-- A reading is accepted under a condition, whatever the table holds. -/
def Accepts (m : Interning α) (P : Prop) : Prop := ∀ t, (∃ a t', m.runOn t = (.ok a, t')) ↔ P

theorem Accepts.congr {m : Interning α} (hm : m.Accepts P) (h : P ↔ Q) : m.Accepts Q :=
  fun t => (hm t).trans h

theorem accepts_pure (a : α) : Accepts (pure a) True :=
  fun t => ⟨fun _ => trivial, fun _ => ⟨a, t, rfl⟩⟩

theorem accepts_throw (e : ConfigError) : Accepts (throw e : Interning α) False := by
  refine fun t => ⟨?_, False.elim⟩
  rintro ⟨a, t', hrun⟩
  cases hrun

/-- A reading after another, whose outcomes satisfy `R`. -/
theorem accepts_bind {m : Interning α} {f : α → Interning β} {R : α → Prop} (hm : m.Accepts P)
    (hR : m.Yields R) (hf : ∀ a, R a → (f a).Accepts Q) : (m >>= f).Accepts (P ∧ Q) := by
  intro t
  rw [runOn_bind, ← hm t]
  rcases hrun : m.runOn t with ⟨e | a, t₁⟩
  · simp
  · simpa using hf a (hR t a t₁ hrun) t₁

theorem accepts_seq {m : Interning α} {f : α → Interning β} (hm : m.Accepts P)
    (hf : ∀ a, (f a).Accepts Q) : (m >>= f).Accepts (P ∧ Q) :=
  accepts_bind hm (yields_true m) fun a _ => hf a

/-- What is done with the outcome of a reading does not matter. -/
theorem accepts_map {m : Interning α} (hm : m.Accepts P) (f : α → β) :
    (m >>= fun a => pure (f a)).Accepts P :=
  (accepts_seq hm fun _ => accepts_pure _).congr (and_iff_left trivial)

/-- A reading after a check, which throws or does nothing. -/
theorem accepts_guard {c : Prop} [Decidable c] {e : ConfigError} {m : Interning α}
    (hm : ¬ c → m.Accepts P) : Accepts (do
      if c then throw e
      m) (¬ c ∧ P) := by
  split
  · next hc =>
    refine fun t => ⟨?_, fun h => absurd hc h.1⟩
    rintro ⟨a, t', hrun⟩
    cases hrun
  · next hc => exact (hm hc).congr (by simp [hc])

theorem accepts_lift (e : Except ConfigError α) :
    Accepts (liftM e : Interning α) (∃ a, e = .ok a) := by
  cases e with
  | ok a => exact (accepts_pure a).congr (by simp)
  | error cause => exact (accepts_throw cause).congr (by simp)

theorem accepts_rethrow {m : Interning α} (hm : m.Accepts P) (word : ConfigError → ConfigError) :
    Accepts (tryCatch m fun cause => throw (word cause)) P := by
  intro t
  simp only [runOn_rethrow_eq_ok_iff, ← hm t]

theorem accepts_mapM {f : α → Interning β} {P : α → Prop} (hf : ∀ a, (f a).Accepts (P a))
    (as : List α) : (as.mapM f).Accepts (∀ a ∈ as, P a) := by
  induction as with
  | nil => exact (accepts_pure _).congr (by simp)
  | cons a as ih =>
    rw [List.mapM_cons]
    exact (accepts_seq (hf a) fun _ => accepts_map ih _).congr List.forall_mem_cons.symm

theorem accepts_forM {f : α → Interning Unit} {P : α → Prop} (hf : ∀ a, (f a).Accepts (P a))
    (as : List α) : (as.forM f).Accepts (∀ a ∈ as, P a) := by
  induction as with
  | nil => exact (accepts_pure ()).congr (by simp)
  | cons a as ih =>
    show (f a >>= fun _ => as.forM f).Accepts _
    exact (accepts_seq (hf a) fun _ => ih).congr List.forall_mem_cons.symm

theorem accepts_trigger (id : KindId) (rule : Int) : (trigger id rule).Accepts True :=
  fun _ => ⟨fun _ => trivial, fun _ => ⟨(), _, rfl⟩⟩

theorem accepts_mapM_option {f : α → Interning β} {P : α → Prop} (hf : ∀ a, (f a).Accepts (P a))
    (a? : Option α) : (a?.mapM f).Accepts (∀ a, a? = some a → P a) := by
  cases a? with
  | none => exact (accepts_pure none).congr (by simp)
  | some a => exact (accepts_map (hf a) some).congr (by simp)

theorem accepts_internValid (names : List String) (kind : Kind) :
    (internValid names kind).Accepts (∀ name ∈ names, IsKindName name) := by
  simp only [← validKindName_iff]
  unfold internValid
  split
  · next name hname =>
    obtain ⟨hmem, hinvalid⟩ := List.mem_of_find?_eq_some hname, List.find?_some hname
    refine (accepts_throw _).congr ⟨False.elim, fun h => ?_⟩
    simp [h name hmem] at hinvalid
  · next hnone =>
    have hvalid : ∀ name ∈ names, validKindName name = true := by simpa using hnone
    exact fun t => ⟨fun _ => hvalid, fun _ => ⟨_, _, rfl⟩⟩

theorem accepts_named (name : String) : (named name).Accepts (IsKindName name) :=
  (accepts_internValid _ _).congr List.forall_mem_singleton

theorem accepts_half (base label : String) :
    (half base label).Accepts (IsKindName base ∧ IsKindName label) :=
  (accepts_internValid _ _).congr (by simp)

theorem accepts_namedAll (names : List String) :
    (namedAll names).Accepts (∀ name ∈ names, IsKindName name) :=
  accepts_mapM accepts_named names

theorem accepts_foldlM {f : β → α → Interning β} {P : α → Prop}
    (hf : ∀ b a, (f b a).Accepts (P a)) (as : List α) (b : β) :
    (as.foldlM f b).Accepts (∀ a ∈ as, P a) := by
  induction as generalizing b with
  | nil => exact (accepts_pure b).congr (by simp)
  | cons a as ih =>
    rw [List.foldlM_cons]
    exact (accepts_seq (hf b a) ih).congr List.forall_mem_cons.symm

/-! ### Known kinds -/

variable {t : KindTable}

/-- A reading leaves the table as it is, whether it comes to an outcome or is refused. -/
def Keeps (t : KindTable) (m : Interning α) (a : α) : Prop :=
  m.runOn t = (.ok a, t) ∨ ∃ e, m.runOn t = (.error e, t)

theorem keeps_pure (a : α) : Keeps t (pure a) a := .inl rfl

theorem keeps_throw (e : ConfigError) (a : α) : Keeps t (throw e) a := .inr ⟨e, rfl⟩

theorem keeps_bind {m : Interning α} {f : α → Interning β} {a : α} {b : β} (hm : Keeps t m a)
    (hf : Keeps t (f a) b) : Keeps t (m >>= f) b := by
  rw [Keeps, runOn_bind]
  rcases hm with hrun | ⟨e, hrun⟩ <;> rw [hrun]
  · exact hf
  · exact .inr ⟨e, rfl⟩

theorem keeps_guard {c : Prop} [Decidable c] {e : ConfigError} {m : Interning α} {a : α}
    (hm : Keeps t m a) : Keeps t (do
      if c then throw e
      m) a := by
  split
  · exact .inr ⟨e, rfl⟩
  · exact hm

theorem keeps_check (e : Except ConfigError Unit) : Keeps t (liftM e) () := by
  cases e with
  | ok _ => exact keeps_pure ()
  | error cause => exact keeps_throw cause ()

theorem keeps_rethrow {m : Interning α} {a : α} (hm : Keeps t m a)
    (word : ConfigError → ConfigError) :
    Keeps t (tryCatch m fun cause => throw (word cause)) a := by
  rw [Keeps, runOn_rethrow]
  rcases hm with hrun | ⟨e, hrun⟩ <;> rw [hrun]
  · exact .inl rfl
  · exact .inr ⟨word e, rfl⟩

theorem keeps_mapM {f : α → Interning β} {g : α → β} {as : List α}
    (hf : ∀ a ∈ as, Keeps t (f a) (g a)) : Keeps t (as.mapM f) (as.map g) := by
  induction as with
  | nil => exact keeps_pure []
  | cons a as ih =>
    obtain ⟨ha, has⟩ := List.forall_mem_cons.1 hf
    rw [List.mapM_cons]
    exact keeps_bind ha (keeps_bind (ih has) (keeps_pure _))

theorem keeps_mapM_option {f : α → Interning β} {g : α → β} {a? : Option α}
    (hf : ∀ a, a? = some a → Keeps t (f a) (g a)) : Keeps t (a?.mapM f) (a?.map g) := by
  cases a? with
  | none => exact keeps_pure none
  | some a => exact keeps_bind (hf a rfl) (keeps_pure _)

theorem keeps_foldlM {f : β → α → Interning β} {g : β → α → β} {as : List α} {b : β}
    (hf : ∀ b, ∀ a ∈ as, Keeps t (f b a) (g b a)) : Keeps t (as.foldlM f b) (as.foldl g b) := by
  induction as generalizing b with
  | nil => exact keeps_pure b
  | cons a as ih =>
    rw [List.foldlM_cons]
    exact keeps_bind (hf b a List.mem_cons_self)
      (ih fun b a ha => hf b a (List.mem_cons_of_mem _ ha))

theorem keeps_internValid {names : List String} {kind : Kind}
    (h : (∀ name ∈ names, IsKindName name) → ∃ id, t.find? kind = some id) :
    Keeps t (internValid names kind) (t.intern kind).1 := by
  simp only [← validKindName_iff] at h
  unfold internValid
  split
  · exact keeps_throw _ _
  · next hnone =>
    obtain ⟨id, hid⟩ := h (by simpa using hnone)
    have hknown : t.intern kind = (id, t) := by rw [KindTable.intern, hid]
    rw [hknown]
    refine .inl ?_
    show (Except.ok (t.intern kind).1, (t.intern kind).2) = _
    rw [hknown]

end Interning

end TaintFlow
