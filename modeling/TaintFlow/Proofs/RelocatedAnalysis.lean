import TaintFlow.Proofs.Relocation
import TaintFlow.Proofs.Trail

/-!
The analysis of a method under another id. The walk of the moved method meets the moved events, so
that the inferred model is the same and the observations are the moved ones, in the same order
(`MethodAnalysis.run_withId`).
-/

namespace TaintFlow

def Method.withId (j : MethodId) (m : Method) : Method := { m with id := j }

/-! ### Observations -/

namespace Observations

def movedKey (j : MethodId) (k : Observation.Key) : Observation.Key :=
  ({ k.1 with method := j }, k.2)

theorem compare_movedKey {k k' : Observation.Key} (h : k.1.method = k'.1.method) (j : MethodId) :
    compare (movedKey j k) (movedKey j k') = compare k k' := by
  have hcompare (k k' : Observation.Key) : compare k k' =
      ((compare k.1.method k'.1.method).then (compare k.1.position k'.1.position)).then
        (compare k.2 k'.2) := rfl
  rw [hcompare, hcompare, h, LinearOrd.compare_self]
  simp only [movedKey, LinearOrd.compare_self]

theorem movedKey_injective {i j : MethodId} {k k' : Observation.Key} (hk : k.1.method = i)
    (hk' : k'.1.method = i) (h : movedKey j k = movedKey j k') : k = k' :=
  LinearOrd.eq_of_compare <| by
    rw [← compare_movedKey (hk.trans hk'.symm) j, h, LinearOrd.compare_self]

theorem get?_addAll (news : List Observation) (os : Observations) (k : Observation.Key) :
    (os.addAll news).get? k =
      (news.filter fun o => o.key = k).foldl
        (fun own o => some (own.elim o (Observation.join · o))) (os.get? k) :=
  OrdMap.get?_foldl_addKeyed Observation.key Observation.join news os k

/-- Moved observations add up to the moved sums. -/
theorem get?_addAll_moved {i j : MethodId} {news : List Observation}
    (hnews : ∀ o ∈ news, o.site.method = i) {k : Observation.Key} (hk : k.1.method = i) :
    ((∅ : Observations).addAll (news.map (·.moved j))).get? (movedKey j k) =
      (((∅ : Observations).addAll news).get? k).map (·.moved j) := by
  have hfilter : (news.map (·.moved j)).filter (fun o => o.key = movedKey j k) =
      (news.filter fun o => o.key = k).map (·.moved j) := by
    rw [List.filter_map]
    refine congrArg (List.map _) (List.filter_congr fun o ho => ?_)
    rw [Function.comp_apply, decide_eq_decide]
    exact ⟨fun h => movedKey_injective (hnews o ho) hk h, fun h => congrArg (movedKey j) h⟩
  have hfold (os : List Observation) (own : Option Observation) :
      (os.map (·.moved j)).foldl (fun own o => some (own.elim o (Observation.join · o)))
          (own.map (·.moved j)) =
        (os.foldl (fun own o => some (own.elim o (Observation.join · o))) own).map
          (·.moved j) := by
    induction os generalizing own with
    | nil => rfl
    | cons o os ih =>
      rw [List.map_cons, List.foldl_cons, List.foldl_cons, ← ih]
      cases own <;> rfl
  rw [get?_addAll, get?_addAll, hfilter]
  exact hfold _ none

theorem values_addAll_moved {i j : MethodId} {news : List Observation}
    (hnews : ∀ o ∈ news, o.site.method = i) :
    ((∅ : Observations).addAll (news.map (·.moved j))).values =
      ((∅ : Observations).addAll news).values.map (·.moved j) := by
  have hmethod {j : MethodId} {news : List Observation} (hnews : ∀ o ∈ news, o.site.method = j)
      {k : Observation.Key} {o : Observation}
      (h : ((∅ : Observations).addAll news).get? k = some o) : k.1.method = j := by
    rw [← keyed_addAll news k o h]
    exact forall_addAll (P := fun o => o.site.method = j) (fun _ _ h => h) news hnews
      (fun _ _ h => by cases h) h
  have hentries := OrdMap.entries_eq_map (m := (∅ : Observations).addAll news)
    (n := (∅ : Observations).addAll (news.map (·.moved j))) (g := movedKey j)
    (h := Observation.moved j) (fun k hk k' hk' => ?_) fun k' o' => ?_
  · rw [OrdMap.values, OrdMap.values, hentries, List.map_map, List.map_map]
    rfl
  · obtain ⟨o, ho⟩ := OrdMap.mem_keys.1 hk
    obtain ⟨o', ho'⟩ := OrdMap.mem_keys.1 hk'
    exact compare_movedKey ((hmethod hnews ho).trans (hmethod hnews ho').symm) j
  · have hmoved : ∀ o ∈ news.map (·.moved j), o.site.method = j := fun o ho => by
      obtain ⟨own, -, rfl⟩ := List.mem_map.1 ho
      rfl
    constructor
    · intro ho'
      have hj : k'.1.method = j := hmethod hmoved ho'
      have hk' : movedKey j (movedKey i k') = k' := by
        obtain ⟨⟨method, position⟩, port, sink⟩ := k'
        cases hj
        rfl
      rw [← hk', get?_addAll_moved hnews rfl] at ho'
      obtain ⟨o, ho, hmoved⟩ := Option.map_eq_some_iff.1 ho'
      exact ⟨_, o, ho, hk', hmoved⟩
    · rintro ⟨k, o, ho, rfl, rfl⟩
      rw [get?_addAll_moved hnews (hmethod hnews ho), ho]
      rfl

end Observations

/-! ### Walks -/

namespace Walk

inductive Event.Moved (i j : MethodId) : Event → Event → Prop where
  | run (position : Nat) (instruction : Instruction) {s t : State} (h : State.Moved i j s t) :
    Moved i j (.run position instruction s) (.run position instruction t)
  | leave (value : Option String) {s t : State} (h : State.Moved i j s t) :
    Moved i j (.leave value s) (.leave value t)

variable {m : Method} {h : Heuristics} {f : String → Callee} {j : MethodId} {s t : State}

theorem entry_withId (m : Method) (h : Heuristics) (f : String → Callee) (j : MethodId) :
    State.Moved m.id j (entry ⟨m, h, f⟩) (entry ⟨m.withId j, h, f⟩) := by
  have hlocation (index : Nat) :
      Location.parameter j index = (Location.parameter m.id index).moved j := rfl
  refine List.foldl_rel (List.foldl_rel State.moved_empty fun p _ s t hs => ?_) fun e _ s t hs => ?_
  · refine (hs.bind ?_ p.1).writeAt (l := Location.parameter m.id p.2) rfl true
    exact AliasSet.moved_single (l := Location.parameter m.id p.2) rfl
  · obtain ⟨⟨root, path⟩, frames⟩ := e
    cases root with
    | result => exact hs
    | argument index =>
      show State.Moved m.id j (if index < m.parameters.length then s.writeAt _ _ _ _ _ else s)
        (if index < m.parameters.length then t.writeAt _ _ _ _ _ else t)
      split
      · exact hs.writeAt (l := Location.parameter m.id index) rfl false
      · exact hs

theorem apply_withId (hs : State.Moved m.id j s t) (position : Nat) (instruction : Instruction) :
    State.Moved m.id j (apply ⟨m, h, f⟩ position instruction s).1
        (apply ⟨m.withId j, h, f⟩ position instruction t).1 ∧
      (apply ⟨m.withId j, h, f⟩ position instruction t).2 =
        (apply ⟨m, h, f⟩ position instruction s).2.map (·.moved j) := by
  cases instruction with
  | fresh dest => exact ⟨hs.bind (AliasSet.moved_single rfl) dest, rfl⟩
  | move dest src => exact ⟨hs.bind (hs.read src) dest, rfl⟩
  | fieldRead dest base field => exact ⟨hs.bind ((hs.read base).map_field field _) dest, rfl⟩
  | fieldWrite base field src =>
    have hvalue : t.readRegister src h.maxFieldDepth = s.readRegister src h.maxFieldDepth :=
      hs.readAll (hs.read src)
    refine ⟨?_, rfl⟩
    simp only [apply, hvalue]
    exact hs.writeAll (hs.read base) true
  | call callee args result =>
    have harguments : List.Forall₂ (AliasSet.Moved m.id j) (args.map s.read) (args.map t.read) :=
      List.forall₂_map_left_iff.2 (List.forall₂_map_right_iff.2
        (List.forall₂_same.2 fun arg _ => hs.read arg))
    have hcall : Call.Moved m.id j ⟨m.name, ⟨m.id, position⟩, callee, args.map s.read⟩
      ⟨m.name, ⟨j, position⟩, callee, args.map t.read⟩ := ⟨rfl, rfl, rfl, rfl, harguments⟩
    exact hcall.run hs (f callee) result

theorem revisit_withId {pass pass' : State → Option State × List Event}
    (hpass : ∀ s t, State.Moved m.id j s t →
      Option.Rel (State.Moved m.id j) (pass s).1 (pass' t).1 ∧
        List.Forall₂ (Event.Moved m.id j) (pass s).2 (pass' t).2)
    (passes : Nat) (hs : State.Moved m.id j s t) :
    State.Moved m.id j (revisit ⟨m, h, f⟩ pass passes s).1
        (revisit ⟨m.withId j, h, f⟩ pass' passes t).1 ∧
      List.Forall₂ (Event.Moved m.id j) (revisit ⟨m, h, f⟩ pass passes s).2
        (revisit ⟨m.withId j, h, f⟩ pass' passes t).2 := by
  induction passes generalizing s t with
  | zero => exact ⟨hs, .nil⟩
  | succ passes ih =>
    obtain ⟨hstop, hes⟩ := hpass s t hs
    rw [revisit, revisit]
    generalize pass s = walked at hstop hes ⊢
    generalize pass' t = walked' at hstop hes ⊢
    obtain ⟨stop, es⟩ := walked
    obtain ⟨stop', es'⟩ := walked'
    cases hstop with
    | none => exact ⟨hs, hes⟩
    | some hstop =>
      have hjoin : State.Moved m.id j (State.join _ _ h.maxFieldDepth)
        (State.join _ _ h.maxFieldDepth) := hs.join hstop
      obtain ⟨hhead, hlater⟩ := ih hjoin
      simp only [hstop.le hs]
      split
      · exact ⟨hjoin, hes⟩
      · exact ⟨hhead, List.rel_append hes hlater⟩

theorem trail_withId (body : Body) (hs : State.Moved m.id j s t) :
    Option.Rel (State.Moved m.id j) (trail ⟨m, h, f⟩ body s).1
        (trail ⟨m.withId j, h, f⟩ body t).1 ∧
      List.Forall₂ (Event.Moved m.id j) (trail ⟨m, h, f⟩ body s).2
        (trail ⟨m.withId j, h, f⟩ body t).2 := by
  induction body generalizing s t with
  | done => exact ⟨.some hs, .nil⟩
  | run place instruction rest ih =>
    obtain ⟨hstop, hes⟩ := ih (apply_withId hs place.position instruction).1
    exact ⟨hstop, .cons (.run place.position instruction hs) hes⟩
  | leave place value rest => exact ⟨.none, .cons (.leave value hs) .nil⟩
  | branch place taken skipped rest ihTaken ihSkipped ihRest =>
    obtain ⟨htaken, hes⟩ := ihTaken hs
    obtain ⟨hskipped, hes'⟩ := ihSkipped hs
    have hmeet := meet_rel (v := ⟨m, h, f⟩) (w := ⟨m.withId j, h, f⟩)
      (fun _ _ _ _ hs ht => hs.join ht) htaken hskipped
    simp only [trail]
    generalize meet ⟨m, h, f⟩ _ _ = met at hmeet ⊢
    generalize meet ⟨m.withId j, h, f⟩ _ _ = met' at hmeet ⊢
    cases hmeet with
    | none => exact ⟨.none, List.rel_append hes hes'⟩
    | some hmet =>
      obtain ⟨hstop, hlater⟩ := ihRest hmet
      exact ⟨hstop, List.rel_append (List.rel_append hes hes') hlater⟩
  | loop place body rest ihBody ihRest =>
    obtain ⟨hhead, hes⟩ := revisit_withId (fun _ _ hs => ihBody hs) h.maxLoopIterations hs
    obtain ⟨hstop, hlater⟩ := ihRest hhead
    exact ⟨hstop, List.rel_append hes hlater⟩

theorem events_withId (m : Method) (h : Heuristics) (f : String → Callee) (j : MethodId)
    (body : Body) :
    List.Forall₂ (Event.Moved m.id j) (events ⟨m, h, f⟩ body)
      (events ⟨m.withId j, h, f⟩ body) := by
  obtain ⟨hstop, hes⟩ := trail_withId (h := h) (f := f) body (entry_withId m h f j)
  rw [events, events]
  generalize trail ⟨m, h, f⟩ body _ = walked at hstop hes ⊢
  generalize trail ⟨m.withId j, h, f⟩ body _ = walked' at hstop hes ⊢
  obtain ⟨stop, es⟩ := walked
  obtain ⟨stop', es'⟩ := walked'
  cases hstop with
  | none => exact hes
  | some hs => exact List.rel_append hes (.cons (.leave none hs) .nil)

theorem observedAt_withId {e e' : Event} (he : Event.Moved m.id j e e') :
    observedAt ⟨m.withId j, h, f⟩ e' = (observedAt ⟨m, h, f⟩ e).map (·.moved j) := by
  cases he with
  | run position instruction hs => exact (apply_withId hs position instruction).2
  | leave value hs => rfl

theorem observed_withId {es es' : List Event} (hes : List.Forall₂ (Event.Moved m.id j) es es') :
    es'.flatMap (observedAt ⟨m.withId j, h, f⟩) =
      (es.flatMap (observedAt ⟨m, h, f⟩)).map (·.moved j) := by
  induction hes with
  | nil => rfl
  | cons he _ ih =>
    rw [List.flatMap_cons, List.flatMap_cons, ih, observedAt_withId he, List.map_append]

structure Gathered.Moved (i j : MethodId) (g g' : Gathered) : Prop where
  returned : g'.returned = g.returned
  exit : Option.Rel (State.Moved i j) g.exit g'.exit

theorem record_withId {g g' : Gathered} (hg : Gathered.Moved m.id j g g') {e e' : Event}
    (he : Event.Moved m.id j e e') :
    Gathered.Moved m.id j (record ⟨m, h, f⟩ g e) (record ⟨m.withId j, h, f⟩ g' e') := by
  cases he with
  | run position instruction hs => exact ⟨hg.returned, hg.exit⟩
  | @leave value s t hs =>
    constructor
    · cases value with
      | none => exact hg.returned
      | some register =>
        have hvalue : t.readRegister register h.maxFieldDepth =
            s.readRegister register h.maxFieldDepth := hs.readAll (hs.read register)
        show TaintTree.join g'.returned _ _ = TaintTree.join g.returned _ _
        rw [hg.returned]
        exact congrArg (TaintTree.join g.returned · _) hvalue
    · have hexit : Option.Rel (State.Moved m.id j) (returnValue ⟨m, h, f⟩ value s g).exit
          (returnValue ⟨m.withId j, h, f⟩ value t g').exit := by
        cases value <;> exact hg.exit
      simp only [record, leaveIn]
      generalize (returnValue ⟨m, h, f⟩ value s g).exit = exit at hexit ⊢
      generalize (returnValue ⟨m.withId j, h, f⟩ value t g').exit = exit' at hexit ⊢
      cases hexit with
      | none => exact .some hs
      | some hst => exact .some (hst.join hs)

end Walk

namespace MethodAnalysis

open Walk

variable {m : Method} {h : Heuristics} {f : String → Callee} {j : MethodId}

theorem gather_withId (m : Method) (h : Heuristics) (f : String → Callee) (j : MethodId)
    (body : Body) :
    Gathered.Moved m.id j (gather ⟨m, h, f⟩ body) (gather ⟨m.withId j, h, f⟩ body) := by
  rw [gather_eq, gather_eq]
  exact List.rel_foldl (P := Gathered.Moved m.id j) (R := Event.Moved m.id j)
    (fun _ _ hg _ _ he => record_withId hg he) ⟨rfl, .none⟩ (events_withId m h f j body)

theorem heldAtExit_withId {s t : State} (hs : State.Moved m.id j s t) :
    heldAtExit ⟨m.withId j, h, f⟩ t = heldAtExit ⟨m, h, f⟩ s := by
  have htree (index : Nat) : t.tree? (Location.parameter j index).origin =
      s.tree? (Location.parameter m.id index).origin :=
    hs.tree?_moved (o := (Location.parameter m.id index).origin) rfl
  unfold heldAtExit
  exact congrArg (List.flatMap · _) (funext fun index => by rw [← htree]; rfl)

theorem infer_withId {g g' : Gathered} (hg : Gathered.Moved m.id j g g')
    (hobservations : g'.observations.values = g.observations.values.map (·.moved j)) :
    infer ⟨m.withId j, h, f⟩ g' = infer ⟨m, h, f⟩ g := by
  have hhanded : handedBack ⟨m.withId j, h, f⟩ g' = handedBack ⟨m, h, f⟩ g := by
    obtain ⟨hreturned, hexit⟩ := hg
    unfold handedBack
    rw [hreturned]
    generalize g.exit = s at hexit ⊢
    generalize g'.exit = t at hexit ⊢
    cases hexit with
    | none => rfl
    | some hs => rw [Option.map_some, Option.map_some, heldAtExit_withId hs]
  unfold infer
  simp only [hhanded, hobservations, List.flatMap_map]
  rfl

/-- Under another id a method has the same model, and the same is observed at its calls. -/
theorem run_withId (m : Method) (h : Heuristics) (f : String → Callee) (j : MethodId) :
    run ⟨m.withId j, h, f⟩ =
      ⟨(run ⟨m, h, f⟩).model, (run ⟨m, h, f⟩).observations.map (·.moved j)⟩ := by
  have hbody : (m.withId j).body = m.body := rfl
  unfold run
  simp only [hbody]
  cases m.body with
  | none => rfl
  | some body =>
    have hobservations : (gather ⟨m.withId j, h, f⟩ body).observations.values =
        (gather ⟨m, h, f⟩ body).observations.values.map (·.moved j) := by
      rw [observations_gather, observations_gather, observed_withId (events_withId m h f j body)]
      refine Observations.values_addAll_moved (i := m.id) fun o ho => ?_
      obtain ⟨e, -, he⟩ := List.mem_flatMap.1 ho
      exact method_of_mem_observedAt he
    simp only [infer_withId (gather_withId m h f j body) hobservations, hobservations]

end MethodAnalysis

end TaintFlow
