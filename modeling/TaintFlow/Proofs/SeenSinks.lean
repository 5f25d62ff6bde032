import TaintFlow.Proofs.Lattice
import TaintFlow.Proofs.Trail

/-!
Sinks have no part in how taint spreads. Two models that differ in sinks with unseen labels only
(`Model.SameBut`) lead to the same states after a call, and to the same observations at the sinks
that are seen. So the analysis of a method with such callees walks the same trail, and what it
infers and observes differs in unseen sinks only.
-/

namespace TaintFlow

variable {seen : Label → Bool}

/-! ### Frames by port -/

namespace PortFrames

def SameSeen (seen : Label → Bool) (m n : PortFrames) : Prop :=
  ∀ port f, seen f.label = true → (m.getD port ∅).get? f = (n.getD port ∅).get? f

variable {m m' n n' : PortFrames}

theorem SameSeen.refl (m : PortFrames) : SameSeen seen m m := fun _ _ _ => rfl

theorem SameSeen.join (h : SameSeen seen m n) (h' : SameSeen seen m' n') :
    SameSeen seen (m.join m') (n.join n') := fun port f hf => by
  rw [getD_join, getD_join, FrameSet.join, FrameSet.join, OrdMap.get?_union, OrdMap.get?_union,
    h port f hf, h' port f hf]

theorem getD_add (m : PortFrames) (port port' : Port) (f : Frame) (info : FrameInfo) :
    (m.add port f info).getD port' ∅ =
      if port' = port then FrameSet.add (m.getD port ∅) f info else m.getD port' ∅ := by
  rw [OrdMap.getD, get?_add]
  split <;> rfl

theorem SameSeen.add (h : SameSeen seen m n) (port : Port) (f : Frame) (info : FrameInfo) :
    SameSeen seen (m.add port f info) (n.add port f info) := fun port' f' hf' => by
  rw [getD_add, getD_add]
  by_cases hport : port' = port
  · rw [if_pos hport, if_pos hport, FrameSet.get?_add, FrameSet.get?_add]
    by_cases hf : f' = f
    · rw [if_pos hf, if_pos hf, h port f (hf ▸ hf')]
    · rw [if_neg hf, if_neg hf, h port f' hf']
  · rw [if_neg hport, if_neg hport, h port' f' hf']

theorem SameSeen.add_unseen (h : SameSeen seen m n) (port : Port) {f : Frame} (info : FrameInfo)
    (hf : seen f.label = false) : SameSeen seen (m.add port f info) n := fun port' f' hf' => by
  have hne : f' ≠ f := by
    rintro rfl
    rw [hf] at hf'
    cases hf'
  rw [getD_add]
  by_cases hport : port' = port
  · rw [if_pos hport, FrameSet.get?_add, if_neg hne, hport, h port f' hf']
  · rw [if_neg hport, h port' f' hf']

/-- Adding a list of frames is adding those with labels that are seen. -/
theorem SameSeen.foldl_add (h : SameSeen seen m n) (frames : List (Port × Frame × FrameInfo)) :
    SameSeen seen (frames.foldl (fun m e => m.add e.1 e.2.1 e.2.2) m)
      ((frames.filter fun e => seen e.2.1.label).foldl (fun m e => m.add e.1 e.2.1 e.2.2) n) := by
  induction frames generalizing m n with
  | nil => exact h
  | cons e frames ih =>
    cases hseen : seen e.2.1.label
    · rw [List.filter_cons_of_neg (by simp [hseen])]
      exact ih (h.add_unseen e.1 e.2.2 hseen)
    · rw [List.filter_cons_of_pos (by exact hseen)]
      exact ih (h.add e.1 e.2.1 e.2.2)

theorem SameSeen.symm (h : SameSeen seen m n) : SameSeen seen n m :=
  fun port f hf => (h port f hf).symm

theorem SameSeen.trans (h : SameSeen seen m m') (h' : SameSeen seen m' n) : SameSeen seen m n :=
  fun port f hf => (h port f hf).trans (h' port f hf)

theorem SameSeen.foldl_add_of_filter_eq (h : SameSeen seen m n)
    {frames frames' : List (Port × Frame × FrameInfo)}
    (hframes : (frames.filter fun e => seen e.2.1.label) =
      frames'.filter fun e => seen e.2.1.label) :
    SameSeen seen (frames.foldl (fun m e => m.add e.1 e.2.1 e.2.2) m)
      (frames'.foldl (fun m e => m.add e.1 e.2.1 e.2.2) n) :=
  (hframes ▸ h.foldl_add frames).trans ((SameSeen.refl n).foldl_add frames').symm

def seenOnly (seen : Label → Bool) (m : PortFrames) : PortFrames :=
  (m.mapValues fun _ fs => fs.filter fun f _ => seen f.label).filter fun _ fs => !OrdMap.isEmpty fs

theorem seenOnly_eq (h : SameSeen seen m n) : seenOnly seen m = seenOnly seen n := by
  have hget (m : PortFrames) (port : Port) : (seenOnly seen m).get? port =
      if OrdMap.isEmpty ((m.getD port ∅).filter fun f _ => seen f.label) then none
      else some ((m.getD port ∅).filter fun f _ => seen f.label) := by
    rw [seenOnly, OrdMap.get?_filter, OrdMap.get?_mapValues, OrdMap.getD]
    cases m.get? port with
    | none => rfl
    | some fs =>
      show Option.filter _ (some _) = _
      rw [Option.filter]
      cases hempty : OrdMap.isEmpty (OrdMap.filter (fun f _ => seen f.label) fs) <;> simp [hempty]
  refine OrdMap.ext fun port => ?_
  have hsame : (m.getD port ∅).filter (fun f _ => seen f.label) =
      (n.getD port ∅).filter fun f _ => seen f.label := by
    refine OrdMap.ext fun f => ?_
    rw [OrdMap.get?_filter, OrdMap.get?_filter]
    cases hseen : seen f.label with
    | false => cases (m.getD port ∅).get? f <;> cases (n.getD port ∅).get? f <;> rfl
    | true => rw [h port f hseen]
  rw [hget, hget, hsame]

end PortFrames

/-! ### Models -/

structure Model.SameBut (seen : Label → Bool) (m n : Model) : Prop where
  generations : m.generations = n.generations
  parameterSources : m.parameterSources = n.parameterSources
  sinks : PortFrames.SameSeen seen m.sinks n.sinks
  propagations : m.propagations = n.propagations
  effectSources : m.effectSources = n.effectSources

namespace Model.SameBut

variable {m m' n n' : Model}

theorem refl (m : Model) : SameBut seen m m := ⟨rfl, rfl, .refl _, rfl, rfl⟩

theorem join (h : SameBut seen m n) (h' : SameBut seen m' n') :
    SameBut seen (m.join m') (n.join n') where
  generations := by simp only [Model.join, h.generations, h'.generations]
  parameterSources := by simp only [Model.join, h.parameterSources, h'.parameterSources]
  sinks := h.sinks.join h'.sinks
  propagations := by simp only [Model.join, h.propagations, h'.propagations]
  effectSources := by simp only [Model.join, h.effectSources, h'.effectSources]

end Model.SameBut

inductive Callee.SameBut (seen : Label → Bool) : Callee → Callee → Prop
  | modeled {m n : Model} (h : m.SameBut seen n) : SameBut seen (.modeled m) (.modeled n)
  | obscure : SameBut seen .obscure .obscure

/-! ### Calls -/

def Observation.isSeen (seen : Label → Bool) (o : Observation) : Bool := seen o.sink.label

namespace Call

theorem filter_observeAt (h : Heuristics) (c : Call) (s : State) (port : Port) (sinks : FrameSet) :
    (c.observeAt h s port sinks).filter (Observation.isSeen seen) =
      c.observeAt h s port (sinks.filter fun f _ => seen f.label) := by
  unfold observeAt
  simp only
  split
  · rfl
  · rw [List.filter_map]
    rfl

theorem observeAt_of_isEmpty {h : Heuristics} {c : Call} {s : State} {port : Port}
    {sinks : FrameSet} (hempty : OrdMap.isEmpty sinks = true) : c.observeAt h s port sinks = [] := by
  have hnil : sinks.entries = [] := List.isEmpty_iff.1 hempty
  unfold observeAt
  simp only [hnil, List.map_nil, ite_self]

/-- What is observed at the sinks that are seen, read off what is left without the others. -/
theorem filter_observe (h : Heuristics) (c : Call) (model : Model) (s : State) :
    (c.observe h model s).filter (Observation.isSeen seen) =
      (model.sinks.seenOnly seen).entries.flatMap fun e => c.observeAt h s e.1 e.2 := by
  have hentries (entries : List (Port × FrameSet)) :
      (entries.flatMap fun e => c.observeAt h s e.1 e.2).filter (Observation.isSeen seen) =
        ((entries.map fun e => (e.1, e.2.filter fun f _ => seen f.label)).filter
          fun e => !OrdMap.isEmpty e.2).flatMap fun e => c.observeAt h s e.1 e.2 := by
    induction entries with
    | nil => rfl
    | cons e entries ih =>
      rw [List.flatMap_cons, List.filter_append, ih, filter_observeAt, List.map_cons]
      cases hempty : OrdMap.isEmpty (e.2.filter fun f _ => seen f.label)
      · rw [List.filter_cons_of_pos (by simp [hempty])]
        rfl
      · rw [List.filter_cons_of_neg (by simp [hempty]), observeAt_of_isEmpty hempty]
        rfl
  exact hentries model.sinks.entries

variable {h : Heuristics} {c : Call} {callee callee' : Callee} {result : Option String} {s : State}

theorem run_state_congr (hcallee : callee.SameBut seen callee') :
    (c.run h callee result s).1 = (c.run h callee' result s).1 := by
  cases hcallee with
  | obscure => rfl
  | modeled hmodel =>
    simp only [run, outputs, shared, hmodel.generations, hmodel.propagations]

theorem run_observed_congr (hcallee : callee.SameBut seen callee') :
    (c.run h callee result s).2.filter (Observation.isSeen seen) =
      (c.run h callee' result s).2.filter (Observation.isSeen seen) := by
  cases hcallee with
  | obscure => rfl
  | modeled hmodel =>
    show (c.observe h _ s).filter _ = (c.observe h _ s).filter _
    rw [filter_observe, filter_observe, PortFrames.seenOnly_eq hmodel.sinks]

end Call

/-! ### Walks -/

namespace Walk

/-- If instructions lead to the same states, the trails are the same. -/
theorem trail_congr {w w' : Walk} (hheuristics : w.heuristics = w'.heuristics)
    (happly : ∀ position instruction s,
      (w.apply position instruction s).1 = (w'.apply position instruction s).1) :
    w.trail = w'.trail := by
  have hmeet : w.meet = w'.meet := by
    funext taken skipped
    unfold meet
    rw [hheuristics]
  have hrevisit : w.revisit = w'.revisit := by
    funext pass passes
    induction passes with
    | zero => rfl
    | succ passes ih =>
      funext head
      rw [revisit, revisit, hheuristics, ih]
  funext body
  induction body with
  | done => rfl
  | leave place value rest => rfl
  | run place instruction rest ih =>
    funext s
    rw [trail, trail, happly, ih]
  | branch place taken skipped rest ihTaken ihSkipped ihRest =>
    funext s
    simp only [trail, hmeet, ihTaken, ihSkipped, ihRest]
  | loop place body rest ihBody ihRest =>
    funext s
    simp only [trail, hrevisit, hheuristics, ihBody, ihRest]

variable {m : Method} {h : Heuristics} {f f' : String → Callee}
  (hf : ∀ name, (f name).SameBut seen (f' name))

include hf

theorem apply_state_congr (position : Nat) (instruction : Instruction) (s : State) :
    (Walk.apply ⟨m, h, f⟩ position instruction s).1 =
      (Walk.apply ⟨m, h, f'⟩ position instruction s).1 := by
  cases instruction with
  | call callee args result => exact Call.run_state_congr (hf callee)
  | fresh dest => rfl
  | move dest src => rfl
  | fieldRead dest base field => rfl
  | fieldWrite base field src => rfl

theorem observedAt_congr (e : Event) :
    (Walk.observedAt ⟨m, h, f⟩ e).filter (Observation.isSeen seen) =
      (Walk.observedAt ⟨m, h, f'⟩ e).filter (Observation.isSeen seen) := by
  cases e with
  | leave value s => rfl
  | run position instruction s =>
    cases instruction with
    | call callee args result => exact Call.run_observed_congr (hf callee)
    | fresh dest => rfl
    | move dest src => rfl
    | fieldRead dest base field => rfl
    | fieldWrite base field src => rfl

theorem events_congr (body : Body) :
    Walk.events ⟨m, h, f⟩ body = Walk.events ⟨m, h, f'⟩ body := by
  have htrail : Walk.trail ⟨m, h, f⟩ = Walk.trail ⟨m, h, f'⟩ :=
    trail_congr rfl (apply_state_congr hf)
  have hentry : Walk.entry ⟨m, h, f⟩ = Walk.entry ⟨m, h, f'⟩ := rfl
  rw [events, events, htrail, hentry]

/-- The same is observed at the sinks that are seen. -/
theorem gather_observations_congr (body : Body) :
    (Walk.gather ⟨m, h, f⟩ body).observations.values.filter (Observation.isSeen seen) =
      (Walk.gather ⟨m, h, f'⟩ body).observations.values.filter (Observation.isSeen seen) := by
  have hfilter (news : List Observation) :
      ((∅ : Observations).addAll news).values.filter (Observation.isSeen seen) =
        ((∅ : Observations).addAll (news.filter (Observation.isSeen seen))).values := by
    have hvalues := (Observations.keyed_addAll news).values_filter fun k => seen k.2.2.label
    have hadded : ((∅ : Observations).addAll news).filter (fun k _ => seen k.2.2.label) =
        (∅ : Observations).addAll (news.filter (Observation.isSeen seen)) :=
      OrdMap.filter_foldl_addKeyed _ news ∅
    exact hvalues.symm.trans (congrArg OrdMap.values hadded)
  rw [observations_gather, observations_gather, hfilter, hfilter, events_congr hf]
  simp only [List.filter_flatMap, observedAt_congr hf]

theorem gather_exit_congr (body : Body) :
    (Walk.gather ⟨m, h, f⟩ body).returned = (Walk.gather ⟨m, h, f'⟩ body).returned ∧
      (Walk.gather ⟨m, h, f⟩ body).exit = (Walk.gather ⟨m, h, f'⟩ body).exit := by
  have hfold (es : List Event) (g g' : Gathered) (hreturned : g.returned = g'.returned)
      (hexit : g.exit = g'.exit) :
      (es.foldl (Walk.record ⟨m, h, f⟩) g).returned =
          (es.foldl (Walk.record ⟨m, h, f'⟩) g').returned ∧
        (es.foldl (Walk.record ⟨m, h, f⟩) g).exit =
          (es.foldl (Walk.record ⟨m, h, f'⟩) g').exit := by
    induction es generalizing g g' with
    | nil => exact ⟨hreturned, hexit⟩
    | cons e es ih =>
      cases e with
      | run position instruction s => exact ih _ _ hreturned hexit
      | leave value s =>
        cases value with
        | none => exact ih _ _ hreturned (by simp only [record, leaveIn, returnValue, hexit])
        | some register =>
          exact ih _ _ (by simp only [record, leaveIn, returnValue, hreturned])
            (by simp only [record, leaveIn, returnValue, hexit])
  rw [gather_eq, gather_eq, events_congr hf]
  exact hfold _ ∅ ∅ rfl rfl

end Walk

/-! ### Inferred models -/

theorem Observation.filter_atParameters (o : Observation) (label : Label) (limit : Nat) :
    (o.atParameters label limit).filter (fun e => seen e.2.1.label) =
      if seen label then o.atParameters label limit else [] := by
  have hlabel : ∀ e ∈ o.atParameters label limit, e.2.1.label = label := by
    intro e he
    obtain ⟨⟨f, info⟩, -, he⟩ := List.mem_filterMap.1 he
    simp only at he
    split at he
    · cases he
    · cases he
      rfl
  cases hseen : seen label
  · exact List.filter_eq_nil_iff.2 fun e he => by simp [hlabel e he, hseen]
  · exact List.filter_eq_self.2 fun e he => by rw [hlabel e he, hseen]

/-- With callees that are known in the same way but for unseen sinks, a method is analyzed in the
same way but for unseen sinks. -/
theorem MethodAnalysis.run_sameBut {m : Method} {h : Heuristics} {f f' : String → Callee}
    (hf : ∀ name, (f name).SameBut seen (f' name)) :
    (run ⟨m, h, f⟩).model.SameBut seen (run ⟨m, h, f'⟩).model ∧
      (run ⟨m, h, f⟩).observations.filter (Observation.isSeen seen) =
        (run ⟨m, h, f'⟩).observations.filter (Observation.isSeen seen) := by
  unfold run
  cases hbody : m.body with
  | none => exact ⟨.refl _, rfl⟩
  | some body =>
    have hobservations := Walk.gather_observations_congr (m := m) (h := h) hf body
    obtain ⟨hreturned, hexit⟩ := Walk.gather_exit_congr (m := m) (h := h) hf body
    have hhanded : handedBack ⟨m, h, f⟩ (Walk.gather ⟨m, h, f⟩ body) =
        handedBack ⟨m, h, f'⟩ (Walk.gather ⟨m, h, f'⟩ body) := by
      unfold handedBack
      rw [hreturned, hexit]
      rfl
    refine ⟨⟨?_, rfl, ?_, ?_, rfl⟩, hobservations⟩
    · simp only [infer, hhanded]
    · refine (PortFrames.SameSeen.refl ∅).foldl_add_of_filter_eq ?_
      have hsinks (os : List Observation) :
          (os.flatMap fun o => o.atParameters o.sink.label h.maxTransformLength).filter
              (fun e => seen e.2.1.label) =
            (os.filter (Observation.isSeen seen)).flatMap
              fun o => o.atParameters o.sink.label h.maxTransformLength := by
        rw [List.filter_flatMap]
        refine (flatMap_filter_eq (fun o _ hseen => ?_) fun o _ hseen => ?_).symm <;>
          rw [Observation.filter_atParameters, show seen o.sink.label = _ from hseen] <;> rfl
      rw [hsinks, hsinks, hobservations]
    · simp only [infer, hhanded]

end TaintFlow
