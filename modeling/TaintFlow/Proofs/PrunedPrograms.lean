import TaintFlow.Proofs.Rereading
import TaintFlow.Proofs.SharedParts

/-!
Leaving methods out of a document. The program of what is left has the methods that are kept, in the
same order, and no name that the whole program does not have (`Program.Pruned`); model files may add
a method again that was left out, without a body. Where all kinds are known, what is left is
accepted: `Program.rereads_load`. The methods that one method reaches are a part of both programs if
none of them is left out: `Pruned.shares`.
-/

namespace TaintFlow

namespace Program

def load (d : ProgramDocument) (entries : List MethodModel) : Interning Program :=
  ofDocument d >>= (·.addModels entries)

/-- A program of which only methods that are not kept are missing. -/
structure Pruned (keep : String → Bool) (p q : Program) : Prop where
  part : p.part keep = q.part keep
  names : ∀ name, p.lookup name = none → q.lookup name = none

variable {keep : String → Bool} {p q : Program} {name : String}

/-! ### Adding methods -/

theorem lookup_eq_none_iff : p.lookup name = none ↔ ∀ m ∈ p.methods, m.name ≠ name := by
  simp [lookup, List.find?_eq_none]

theorem lookup_eq_none_iff_part (hkeep : keep name = true) :
    p.lookup name = none ↔ ∀ m ∈ p.part keep, m.name ≠ name := by
  rw [lookup_eq_none_iff, part, List.forall_mem_map]
  constructor
  · exact fun h m hm => h m (List.mem_filter.1 hm).1
  · intro h m hm hname
    exact h m (List.mem_filter.2 ⟨hm, hname ▸ hkeep⟩) hname

theorem keep_of_mem_part {m : Method} (hm : m ∈ p.part keep) : keep m.name = true := by
  obtain ⟨m', hm', rfl⟩ := List.mem_map.1 hm
  exact (List.mem_filter.1 hm').2

theorem lookup_push (parameters : List String) (body : Option Body) (declared : Option Model)
    {name' : String} :
    (p.push name parameters body declared).lookup name' = none ↔
      p.lookup name' = none ∧ name ≠ name' := by
  simp only [lookup_eq_none_iff, push, List.forall_mem_append, List.forall_mem_singleton]

theorem part_push (parameters : List String) (body : Option Body) (declared : Option Model) :
    (p.push name parameters body declared).part keep =
      p.part keep ++ if keep name then [⟨⟨0⟩, name, parameters, body, declared⟩] else [] := by
  rw [part, push, List.filter_append, List.map_append]
  cases hkeep : keep name <;> simp [part, hkeep, Method.withId]

def declaring (name : String) (model : Model) (m : Method) : Method :=
  if m.name == name then { m with declared := some ((m.declared.getD ∅).join model) } else m

theorem name_declaring (model : Model) (m : Method) : (declaring name model m).name = m.name := by
  unfold declaring
  split <;> rfl

theorem withId_declaring (model : Model) (i : MethodId) (m : Method) :
    (declaring name model m).withId i = declaring name model (m.withId i) := by
  unfold declaring
  rw [show (m.withId i).name = m.name from rfl]
  split <;> rfl

theorem joinDeclared_eq (p : Program) (name : String) (model : Model) :
    p.joinDeclared name model =
      if (p.lookup name).isSome then ⟨p.methods.map (declaring name model)⟩
      else p.push name [] none (some model) := rfl

theorem part_declaring (model : Model) :
    (⟨p.methods.map (declaring name model)⟩ : Program).part keep =
      (p.part keep).map (declaring name model) := by
  rw [part, List.filter_map, List.map_map, part, List.map_map]
  simp only [Function.comp_def, name_declaring, withId_declaring]

/-- A name has a method once a model is declared for it. -/
theorem lookup_joinDeclared (model : Model) {name' : String} :
    (p.joinDeclared name model).lookup name' = none ↔ p.lookup name' = none ∧ name ≠ name' := by
  rw [joinDeclared_eq]
  split
  · next hsome =>
    simp only [lookup_eq_none_iff, List.forall_mem_map, name_declaring]
    refine ⟨fun h => ⟨h, fun heq => ?_⟩, And.left⟩
    obtain ⟨m, hm⟩ := Option.isSome_iff_exists.1 hsome
    exact h m (mem_of_lookup hm).1 ((mem_of_lookup hm).2.trans heq)
  · exact lookup_push [] none (some model)

theorem part_joinDeclared_of_not (hkeep : keep name = false) (model : Model) :
    (p.joinDeclared name model).part keep = p.part keep := by
  rw [joinDeclared_eq]
  split
  · rw [part_declaring, List.map_congr_left (g := id), List.map_id]
    intro m hm
    refine if_neg fun hname => ?_
    rw [← eq_of_beq hname, keep_of_mem_part hm] at hkeep
    cases hkeep
  · rw [part_push, hkeep]
    simp

namespace Pruned

theorem lookup (h : p.Pruned keep q) (hkeep : keep name = true) :
    q.lookup name = none ↔ p.lookup name = none := by
  rw [lookup_eq_none_iff_part hkeep, lookup_eq_none_iff_part hkeep, h.part]

theorem push (h : p.Pruned keep q) (name : String) (parameters : List String) (body : Option Body)
    (declared : Option Model) :
    (p.push name parameters body declared).Pruned keep (q.push name parameters body declared) where
  part := by rw [part_push, part_push, h.part]
  names name' := by
    rw [lookup_push, lookup_push]
    exact And.imp_left (h.names name')

/-- A method that is not kept. -/
theorem push_left (h : p.Pruned keep q) (hkeep : keep name = false) (parameters : List String)
    (body : Option Body) (declared : Option Model) :
    (p.push name parameters body declared).Pruned keep q where
  part := by
    rw [part_push, hkeep, ← h.part]
    simp
  names name' hnone := h.names name' ((lookup_push parameters body declared).1 hnone).1

theorem joinDeclared (h : p.Pruned keep q) (name : String) (model : Model) :
    (p.joinDeclared name model).Pruned keep (q.joinDeclared name model) where
  part := by
    cases hkeep : keep name with
    | false => rw [part_joinDeclared_of_not hkeep, part_joinDeclared_of_not hkeep, h.part]
    | true =>
      have hsome : (q.lookup name).isSome = (p.lookup name).isSome := by
        rw [Bool.eq_iff_iff, ← not_iff_not, Option.not_isSome_iff_eq_none,
          Option.not_isSome_iff_eq_none, h.lookup hkeep]
      rw [joinDeclared_eq, joinDeclared_eq, hsome]
      split
      · rw [part_declaring, part_declaring, h.part]
      · rw [part_push, part_push, h.part]
  names name' := by
    rw [lookup_joinDeclared, lookup_joinDeclared]
    exact And.imp_left (h.names name')

end Pruned

theorem pruned_refl (keep : String → Bool) (p : Program) : p.Pruned keep p := ⟨rfl, fun _ h => h⟩

/-! ### Loading -/

open Interning

theorem rereads_addMethod (h : p.Pruned keep q) (d : MethodDocument) :
    Rereads (Pruned keep) (p.addMethod d) (q.addMethod d) := by
  cases hname : p.lookup d.name with
  | some m =>
    rw [addMethod, hname]
    exact rereads_throw
  | none =>
    rw [addMethod, addMethod, hname, h.names _ hname]
    refine rereads_bind (steady_mapM_option (steady_declaredModel d.name) d.model) ?_
    rintro declared _ rfl
    exact rereads_pure (h.push d.name d.parameters _ declared)

theorem rereads_addMethod_dropped (h : p.Pruned keep q) {d : MethodDocument}
    (hkeep : keep d.name = false) : Rereads (Pruned keep) (p.addMethod d) (pure q) := by
  cases hname : p.lookup d.name with
  | some m =>
    rw [addMethod, hname]
    exact rereads_throw
  | none =>
    rw [addMethod, hname]
    exact rereads_skip (steady_mapM_option (steady_declaredModel d.name) d.model) fun declared =>
      rereads_pure (h.push_left hkeep d.parameters _ declared)

theorem rereads_addModel (h : p.Pruned keep q) (d : MethodModel) :
    Rereads (Pruned keep) (p.addModel d) (q.addModel d) := by
  refine rereads_bind (steady_declaredModel d.method d.model) ?_
  rintro model _ rfl
  exact rereads_pure (h.joinDeclared d.method model)

/-- A document that is accepted is accepted without some of its methods, and adds no kind then if
those of the whole document are known. -/
theorem rereads_load (keep : String → Bool) (d : ProgramDocument) (entries : List MethodModel) :
    Rereads (Pruned keep) (load d entries) (load (d.filter (keep ·.name)) entries) := by
  refine rereads_bind (R := Pruned keep) ?_ fun p q h => ?_
  · exact rereads_foldlM_filter (fun _ _ d _ h => rereads_addMethod h d)
      (fun _ _ _ hd h => rereads_addMethod_dropped h hd) d (pruned_refl keep ∅)
  · exact rereads_foldlM (fun _ _ d h => rereads_addModel h d) entries h

theorem yields_load (d : ProgramDocument) (entries : List MethodModel) :
    (load d entries).Yields WellFormed :=
  yields_bind (yields_ofDocument d) fun _ hp => yields_addModels hp entries

/-! ### What a method reaches -/

def reachedNames (p : Program) (m : Method) (name : String) : Bool :=
  (p.lookup name).any fun k => ((CallGraph.build p).reach m.id).contains k.id

theorem reachedNames_iff (hp : p.WellFormed) {m : Method} :
    p.reachedNames m name = true ↔
      ∃ k, p.lookup name = some k ∧ (CallGraph.build p).Reaches m.id k.id := by
  rw [reachedNames, Option.any_eq_true]
  exact exists_congr fun k => and_congr_right fun _ =>
    CallGraph.mem_reach (CallGraph.closed_build hp)

/-- Fewer of the methods with some names. -/
theorem part_filter {names : String → Bool} (h : ∀ name, names name = true → keep name = true)
    (p : Program) : (p.part keep).filter (names ·.name) = p.part names := by
  rw [part, List.filter_map, List.filter_filter, part]
  refine congrArg (List.map _) (List.filter_congr fun m _ => ?_)
  cases hm : names m.name with
  | false => simp [Method.withId, hm]
  | true => simp [Method.withId, hm, h _ hm]

theorem Pruned.part_of_imp (h : p.Pruned keep q) {names : String → Bool}
    (hnames : ∀ name, names name = true → keep name = true) : p.part names = q.part names := by
  rw [← part_filter hnames p, ← part_filter hnames q, h.part]

/-- What a method reaches is a part of both programs, if all of it is kept. -/
theorem Pruned.shares (h : p.Pruned keep q) (hp : p.WellFormed) {m : Method}
    (hkeep : ∀ name, p.reachedNames m name = true → keep name = true) :
    p.Shares (p.reachedNames m) q where
  methods := List.Perm.of_eq (h.part_of_imp hkeep)
  closed k hk hname call hcall := by
    cases hlookup : p.lookup call.2 with
    | none => exact .inr ⟨rfl, h.names _ hlookup⟩
    | some callee =>
      obtain ⟨k', hk', hreaches⟩ := (reachedNames_iff hp).1 hname
      rw [hp.lookup_name hk] at hk'
      cases hk'
      have hcalls := CallGraph.calls_of_lookup hp hk hcall hlookup
      exact .inl ((reachedNames_iff hp).2 ⟨callee, hlookup, hreaches.tail hcalls⟩)

end Program

end TaintFlow
