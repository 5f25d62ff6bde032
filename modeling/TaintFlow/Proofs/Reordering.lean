import TaintFlow.Proofs.RelocatedMatching
import TaintFlow.Proofs.SharedParts
import TaintFlow.Proofs.Visits

/-!
The same methods in another order. A method is found under its name in any order, and the same methods
call and reach each other. What a run knows about a method at first and at the end is read off its
summary, under its name (`start_callee_name`, `run_callee_name`).
-/

namespace TaintFlow

/-! ### Reordered programs -/

/-- Programs with the same methods. The id of a method says where it is listed, and is all that may
be different about it. -/
def Program.Reordered (p q : Program) : Prop :=
  (p.methods.map (·.withId ⟨0⟩)).Perm (q.methods.map (·.withId ⟨0⟩))

namespace Program

variable {p q : Program} {m k : Method} {i j : MethodId}

theorem Reordered.symm (h : p.Reordered q) : q.Reordered p := List.Perm.symm h

/-- Two methods may be added in either order. -/
theorem reordered_push_push (p : Program) (name name' : String) (parameters parameters' : List String)
    (body body' : Option Body) (declared declared' : Option Model) :
    ((p.push name parameters body declared).push name' parameters' body' declared').Reordered
      ((p.push name' parameters' body' declared').push name parameters body declared) := by
  simp only [Reordered, push, List.map_append, List.append_assoc]
  exact (List.Perm.swap _ _ _).append_left _

/-- All methods are a part of both programs. -/
theorem Reordered.shares (h : p.Reordered q) : p.Shares (fun _ => true) q where
  methods := by
    simp only [part, List.filter_true]
    exact h
  closed _ _ _ _ _ := .inl rfl

/-- Every method of one program is listed in the other. -/
theorem Reordered.exists_partner (h : p.Reordered q) (hm : m ∈ p.methods) :
    ∃ j, m.withId j ∈ q.methods :=
  h.shares.exists_partner hm rfl

theorem Reordered.lookup (h : p.Reordered q) (hq : q.WellFormed) {name : String}
    (hm : p.lookup name = some m) : ∃ j, q.lookup name = some (m.withId j) :=
  h.shares.lookup hq rfl hm

/-- The same methods reach each other. -/
theorem Reordered.reaches_iff (h : p.Reordered q) (hp : p.WellFormed) (hq : q.WellFormed)
    (hm : m ∈ p.methods) (hi : m.withId i ∈ q.methods) (hk : k ∈ p.methods)
    (hj : k.withId j ∈ q.methods) :
    (CallGraph.build q).Reaches i j ↔ (CallGraph.build p).Reaches m.id k.id :=
  h.shares.reaches_iff hp hq hm rfl hi hk hj

end Program

namespace Analysis

/-! ### Callees -/

theorem Result.callee_eq_iff {r r' : Result} {name : String} :
    r.callee name = r'.callee name ↔ r.models.get? name = r'.models.get? name := by
  unfold Result.callee
  cases r.models.get? name <;> cases r'.models.get? name <;> simp

variable {a : Analysis} {w : Course} {m : Method}

theorem callee_name (hp : a.program.WellFormed) (hm : m ∈ a.program.methods) (p : Progress) :
    a.callee p m.name =
      match p.summaries.get? m.id with
      | some model => .modeled model
      | none => .obscure := by
  rw [callee, hp.lookup_name hm]
  rfl

theorem start_callee_name (hp : a.program.WellFormed) (hm : m ∈ a.program.methods) :
    a.callee a.start m.name =
      if m.hasBody || m.declared.isSome then .modeled (m.declared.getD ∅) else .obscure := by
  rw [callee_name hp hm, start_summary hp hm, initialSummary]
  cases m.declared <;> cases m.hasBody <;> rfl

/-- At the end a method is known by its summary, if it has a body or a declared model. -/
theorem run_callee_name (hp : a.program.WellFormed) (hm : m ∈ a.program.methods) :
    (a.runAlong w).callee m.name =
      if m.hasBody || m.declared.isSome then .modeled ((a.finish w).2.summaries.getD m.id ∅)
      else .obscure := by
  have hsome := finish_summaries_isSome (w := w) hp hm
  rw [run_callee hp, callee_name hp hm, ← hsome, OrdMap.getD]
  cases (a.finish w).2.summaries.get? m.id <;> rfl

theorem run_callee_none (hp : a.program.WellFormed) {name : String}
    (h : a.program.lookup name = none) : (a.runAlong w).callee name = .obscure := by
  rw [run_callee hp, callee, h]
  rfl

end Analysis

end TaintFlow
