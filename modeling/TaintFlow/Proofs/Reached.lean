import TaintFlow.Proofs.Entry
import TaintFlow.Proofs.LoopHeads
import TaintFlow.Proofs.Vocabulary

/-!
All states that a walk reaches. `Walk.reached` lists the states at the program points of a block:
one before every statement and one at the end of every block, loop bodies included once for every
pass over them. What the instructions of a body and joins keep holds of all of them
(`Walk.keeps_reached`). A call brings what its callee hands back; where that is said in the
vocabulary of the caller (`Callee.Fits`), states made of the vocabulary lead to such states only
(`Walk.Fits.reached`).
-/

namespace TaintFlow

/-! ### Calls -/

structure Model.Fits (V : Vocabulary) (h : Heuristics) (stepOf : Port → Step) (model : Model) :
    Prop where
  generations : ∀ e ∈ model.generations.entries, V.path e.1.path ∧
    V.frames (e.2.addStep (stepOf (e.1.normalize h.maxFieldDepth)) h.maxTraceLength)
  sinks : ∀ e ∈ model.sinks.entries, V.path e.1.path
  propagations : ∀ p ∈ model.propagations, V.path p.input.path ∧ V.path p.output.path ∧
    ∀ fs, V.frames fs → V.frames (fs.mapFrames (p.copy h.maxTransformLength))

def Callee.Fits (V : Vocabulary) (h : Heuristics) (stepOf : Port → Step) : Callee → Prop
  | .modeled model => model.Fits V h stepOf
  | .obscure => True

def Outputs.Fits (V : Vocabulary) (o : Outputs) : Prop :=
  ∀ root tree, o.get? root = some tree → tree.Fits V

namespace Outputs

variable {V : Vocabulary} {depth : Nat} {o : Outputs} {tree : TaintTree}

theorem Fits.getD (hV : V.Closed depth) (ho : o.Fits V) (root : Root) :
    (o.getD root ∅).Fits V := by
  unfold OrdMap.getD
  cases hroot : o.get? root with
  | none => exact TaintTree.fits_empty hV
  | some tree => exact ho root tree hroot

theorem Fits.write (hV : V.Closed depth) (ho : o.Fits V) (htree : tree.Fits V) {port : Port}
    (hport : V.path port.path) : (o.write port tree depth).Fits V := by
  intro root u hu
  unfold Outputs.write at hu
  rw [OrdMap.get?_update] at hu
  split at hu
  · cases hu
    exact (ho.getD hV port.root).write hV htree hport false
  · exact ho root u hu

end Outputs

namespace Call

variable {V : Vocabulary} {h : Heuristics} {c : Call} {model : Model} {s : State}

def ArgumentsFit (V : Vocabulary) (c : Call) : Prop := ∀ L ∈ c.arguments, ∀ l ∈ L, l.Fits V

theorem ArgumentsFit.argument? (hc : c.ArgumentsFit V) {root : Root} {L : AliasSet}
    (hL : c.argument? root = some L) : ∀ l ∈ L, l.Fits V := by
  cases root with
  | argument index => exact hc L (List.mem_of_getElem? hL)
  | result => cases hL

theorem copied_fits (hV : V.Closed h.maxFieldDepth) (hs : s.Fits V) {p : Propagation}
    {L : AliasSet} (hL : ∀ l ∈ L, l.Fits V) (hinput : V.path p.input.path)
    (hcopy : ∀ fs, V.frames fs → V.frames (fs.mapFrames (p.copy h.maxTransformLength))) :
    (copied h s p L).Fits V :=
  Node.Fits.mapFrames hcopy (hs.readAll hV hL (Vocabulary.path_normalize hinput _))

section

variable (hV : V.Closed h.maxFieldDepth) (hc : c.ArgumentsFit V) (hs : s.Fits V)

include hV hc hs

theorem outputs_fits (hmodel : model.Fits V h c.step) : (c.outputs h model s).Fits V := by
  have hgenerated : Outputs.Fits V
      (model.generations.entries.foldl (fun o e => c.generate h o e.1 e.2) ∅) := by
    refine List.foldlRecOn _ _ (fun _ _ hnone => by cases hnone) fun o ho e he => ?_
    obtain ⟨hport, hframes⟩ := hmodel.generations e he
    have htree : (generated h c e.1 e.2).Fits V := hframes
    exact Outputs.Fits.write hV ho htree (Vocabulary.path_normalize hport _)
  have hspread : Outputs.Fits V (c.spread h model s) := by
    refine List.foldlRecOn _ _ hgenerated fun o ho p hp => ?_
    obtain ⟨hinput, houtput, hcopy⟩ := hmodel.propagations p (OrdSet.mem_toList.1 hp)
    unfold propagate
    simp only
    split
    · exact ho
    · next L hL =>
      split
      · exact ho
      · exact ho.write hV (copied_fits hV hs (hc.argument? hL) hinput hcopy)
          (Vocabulary.path_normalize houtput _)
  intro root tree htree
  rw [outputs_eq, OrdMap.get?_mapValues] at htree
  obtain ⟨own, hown, rfl⟩ := Option.map_eq_some_iff.1 htree
  exact (hspread root own hown).collapse hV _

theorem obscured_fits : V.frames (c.obscured h s) := by
  refine hV.addFeature (.inr rfl) (List.foldlRecOn c.arguments _ hV.empty fun _ hfs L hL => ?_)
  exact hV.join hfs ((hs.readAll hV (hc L hL) Vocabulary.path_nil).collect hV)

theorem reaching_fits {port : Port} (hport : V.path port.path) :
    V.frames (c.reaching h s port) := by
  unfold reaching
  cases hL : c.argument? port.root with
  | none => exact hV.empty
  | some L => exact (hs.readAll hV (hc.argument? hL) hport).collect hV

end

theorem shared_fits (hV : V.Closed h.maxFieldDepth) (hc : c.ArgumentsFit V)
    (hmodel : model.Fits V h c.step) : ∀ l ∈ c.shared h model, l.Fits V := by
  intro l hl
  obtain ⟨p, hp, -, L, hL, own, hown, rfl⟩ := mem_shared.1 hl
  exact (hc.argument? hL own hown).fieldPath hV
    (Vocabulary.path_normalize (hmodel.propagations p hp).1 _)

theorem bindResult_fits (hV : V.Closed h.maxFieldDepth)
    (hfresh : V.origin ⟨c.site.method, .instruction c.site.position⟩) (hs : s.Fits V)
    {returned : TaintTree} (hreturned : returned.Fits V) (register : String) {L : AliasSet}
    (hL : ∀ l ∈ L, l.Fits V) : (c.bindResult h s register returned L).Fits V := by
  have hlocation := Location.fits_origin hfresh
  refine (hs.writeAt hV hlocation Vocabulary.path_nil hreturned true).bind register fun l hl => ?_
  rcases OrdSet.mem_insert.1 hl with rfl | hl
  · exact hlocation
  · exact hL l hl

theorem run_fits (hV : V.Closed h.maxFieldDepth) (hc : c.ArgumentsFit V)
    (hfresh : V.origin ⟨c.site.method, .instruction c.site.position⟩) {callee : Callee}
    (hcallee : callee.Fits V h c.step) (hs : s.Fits V) (result : Option String) :
    (c.run h callee result s).1.Fits V := by
  cases callee with
  | obscure =>
    cases result with
    | none => exact hs
    | some register =>
      have hleaf : (TaintTree.leaf (c.obscured h s)).Fits V := obscured_fits hV hc hs
      exact bindResult_fits hV hfresh hs hleaf register fun l hl => absurd hl (OrdSet.not_mem_empty l)
  | modeled model =>
    have houtputs := outputs_fits hV hc hs hcallee
    have hafter : State.Fits V
        ((c.outputs h model s).entries.foldl (fun s e => c.writeArgument h s e.1 e.2) s) := by
      refine List.foldlRecOn _ _ hs fun u hu e he => ?_
      unfold writeArgument
      split
      · next L hL =>
        exact hu.writeAll hV (hc.argument? hL) Vocabulary.path_nil
          (houtputs e.1 e.2 (OrdMap.get?_eq_some_iff.2 he)) false
      · exact hu
    cases result with
    | none => exact hafter
    | some register =>
      exact bindResult_fits hV hfresh hafter (houtputs.getD hV .result) register
        (shared_fits hV hc hcallee)

/-- What is observed at a call: a sink of the callee, and what reaches its port. -/
theorem observed_fits (hV : V.Closed h.maxFieldDepth) (hc : c.ArgumentsFit V) {callee : Callee}
    (hcallee : callee.Fits V h c.step) (hs : s.Fits V) {result : Option String} {o : Observation}
    (ho : o ∈ (c.run h callee result s).2) :
    (∃ model, callee = .modeled model ∧ ∃ e ∈ model.sinks.entries, ∃ own ∈ OrdMap.entries e.2,
      o.port = e.1.normalize h.maxFieldDepth ∧ o.sink = own.1 ∧
        o.info = own.2.addStep (c.step o.port) h.maxTraceLength) ∧
      ∃ reached, V.frames reached ∧ o.parameters = reached.arguments ∧
        o.sources = OrdMap.filter (fun f _ => o.sink.admits f) reached.sources := by
  cases callee with
  | obscure => cases ho
  | modeled model =>
    obtain ⟨⟨port, sinks⟩, he, ho⟩ := List.mem_flatMap.1 ho
    simp only [observeAt_eq] at ho
    split at ho
    · cases ho
    · obtain ⟨own, hown, rfl⟩ := List.mem_map.1 ho
      have hport : V.path (port.normalize h.maxFieldDepth).path :=
        Vocabulary.path_normalize (hcallee.sinks (port, sinks) he) _
      exact ⟨⟨model, rfl, (port, sinks), he, own, hown, rfl, rfl, rfl⟩,
        _, reaching_fits hV hc hs hport, rfl, rfl⟩

end Call

/-! ### Reached states -/

def Block.instructions : Body → List (Nat × Instruction)
  | .done => []
  | .run place i rest => (place.position, i) :: instructions rest
  | .leave _ _ rest => instructions rest
  | .branch _ taken skipped rest => instructions taken ++ instructions skipped ++ instructions rest
  | .loop _ body rest => instructions body ++ instructions rest

namespace Walk

variable (w : Walk)

/-- The states at the program points of a block that is walked from a state. -/
def reached : Body → State → List State
  | .done, s => [s]
  | .run place i rest, s => s :: reached rest (w.apply place.position i s).1
  | .leave _ _ _, s => [s]
  | .branch _ taken skipped rest, s =>
    reached taken s ++ reached skipped s ++
      ((w.meet (w.trail taken s).1 (w.trail skipped s).1).map (reached rest)).getD []
  | .loop _ body rest, s =>
    let starts := w.heads (fun s => (w.trail body s).1) w.heuristics.maxLoopIterations s
    starts.flatMap (reached body) ++
      reached rest (w.revisit (w.trail body) w.heuristics.maxLoopIterations s).1

/-- What the instructions of a body keep, and joins too. -/
structure Keeps (body : Body) (R : State → Prop) : Prop where
  apply : ∀ i ∈ body.instructions, ∀ s, R s → R (w.apply i.1 i.2 s).1
  join : ∀ s t, R s → R t → R (s.join t w.heuristics.maxFieldDepth)

variable {w} {R : State → Prop} {body : Body} {s t : State}

theorem Keeps.mono {inner : Body} (h : w.Keeps body R)
    (hinner : ∀ i ∈ inner.instructions, i ∈ body.instructions) : w.Keeps inner R where
  apply i hi := h.apply i (hinner i hi)
  join := h.join

theorem Keeps.branch {place : Place Nat} {taken skipped rest : Body}
    (h : w.Keeps (.branch place taken skipped rest) R) :
    w.Keeps taken R ∧ w.Keeps skipped R ∧ w.Keeps rest R := by
  refine ⟨h.mono fun i hi => ?_, h.mono fun i hi => ?_, h.mono fun i hi => ?_⟩ <;>
    simp [Block.instructions, hi]

theorem Keeps.loop {place : Place Nat} {body rest : Body} (h : w.Keeps (.loop place body rest) R) :
    w.Keeps body R ∧ w.Keeps rest R := by
  refine ⟨h.mono fun i hi => ?_, h.mono fun i hi => ?_⟩ <;> simp [Block.instructions, hi]

/-- Where both arms stop the states are joined, and else it is the state of the arm that stops. -/
theorem Keeps.meet (h : w.Keeps body R) {taken skipped : Option State}
    (htaken : ∀ s, taken = some s → R s) (hskipped : ∀ s, skipped = some s → R s) :
    ∀ s, w.meet taken skipped = some s → R s := by
  intro s hs
  unfold Walk.meet at hs
  split at hs
  · next s t =>
    cases hs
    exact h.join s t (htaken s rfl) (hskipped t rfl)
  · next s =>
    cases hs
    exact htaken s rfl
  · exact hskipped s hs

/-- Every event and the end of a loop come from a pass over its body. -/
theorem revisit_of_heads {pass : State → Option State × List Event}
    (hpass : ∀ s, R s → ∀ stop, (pass s).1 = some stop → R stop)
    (hjoin : ∀ s t, R s → R t → R (s.join t w.heuristics.maxFieldDepth)) (passes : Nat)
    (hs : R s) :
    R (w.revisit pass passes s).1 ∧
      (∀ head ∈ w.heads (fun s => (pass s).1) passes s, R head) ∧
        ∀ e ∈ (w.revisit pass passes s).2,
          ∃ head ∈ w.heads (fun s => (pass s).1) passes s, e ∈ (pass head).2 := by
  -- on the passes that are left; the head of the next one is a join, which is kept
  induction passes generalizing s with
  | zero => exact ⟨hs, nofun, nofun⟩
  | succ passes ih =>
    have hstop := hpass s hs
    rw [revisit, heads]
    rcases hp : pass s with ⟨_ | stop, es⟩
    · exact ⟨hs, by simpa using hs, fun e he => ⟨s, List.mem_cons_self, by rw [hp]; exact he⟩⟩
    · have hnext := hjoin s stop hs (hstop stop (by rw [hp]))
      have hfirst : ∀ e ∈ es, e ∈ (pass s).2 := by rw [hp]; exact fun _ h => h
      simp only
      split
      · exact ⟨hnext, by simpa using hs, fun e he => ⟨s, List.mem_cons_self, hfirst e he⟩⟩
      · obtain ⟨hlast, hheads, hevents⟩ := ih hnext
        refine ⟨hlast, fun head hhead => ?_, fun e he => ?_⟩
        · rcases List.mem_cons.1 hhead with rfl | hhead
          · exact hs
          · exact hheads head hhead
        · rcases List.mem_append.1 he with he | he
          · exact ⟨s, List.mem_cons_self, hfirst e he⟩
          · obtain ⟨head, hhead, he⟩ := hevents e he
            exact ⟨head, List.mem_cons_of_mem s hhead, he⟩

/-- What is kept on the way holds of every state that is reached. -/
theorem keeps_reached (body : Body) (h : w.Keeps body R) (hs : R s) :
    (∀ t ∈ w.reached body s, R t) ∧ (∀ t, (w.trail body s).1 = some t → R t) ∧
      ∀ e ∈ (w.trail body s).2, R e.state := by
  induction body generalizing s with
  | done =>
    refine ⟨fun t ht => ?_, fun t ht => ?_, nofun⟩
    · exact List.mem_singleton.1 ht ▸ hs
    · exact Option.some.inj ht ▸ hs
  | run place i rest ih =>
    have hnext := h.apply _ List.mem_cons_self s hs
    obtain ⟨hreached, hstop, hevents⟩ := ih (h.mono fun _ => List.mem_cons_of_mem _) hnext
    refine ⟨fun t ht => ?_, hstop, fun e he => ?_⟩
    · rcases List.mem_cons.1 ht with rfl | ht
      · exact hs
      · exact hreached t ht
    · rcases List.mem_cons.1 he with rfl | he
      · exact hs
      · exact hevents e he
  | leave place value rest =>
    refine ⟨fun t ht => ?_, nofun, fun e he => ?_⟩
    · exact List.mem_singleton.1 ht ▸ hs
    · obtain rfl := List.mem_singleton.1 he
      exact hs
  | branch place taken skipped rest ihTaken ihSkipped ihRest =>
    obtain ⟨keepsTaken, keepsSkipped, keepsRest⟩ := h.branch
    obtain ⟨htaken, hstop, hevents⟩ := ihTaken keepsTaken hs
    obtain ⟨hskipped, hstop', hevents'⟩ := ihSkipped keepsSkipped hs
    have harms : ∀ t ∈ w.reached taken s ++ w.reached skipped s, R t :=
      List.forall_mem_append.2 ⟨htaken, hskipped⟩
    have hboth : ∀ e ∈ (w.trail taken s).2 ++ (w.trail skipped s).2, R e.state :=
      List.forall_mem_append.2 ⟨hevents, hevents'⟩
    simp only [reached, trail]
    cases hu : w.meet (w.trail taken s).1 (w.trail skipped s).1 with
    | none => exact ⟨by simpa using harms, fun t ht => (by cases ht), hboth⟩
    | some u =>
      obtain ⟨hreached, hlast, hlater⟩ := ihRest keepsRest (h.meet hstop hstop' u hu)
      exact ⟨List.forall_mem_append.2 ⟨harms, hreached⟩, hlast,
        List.forall_mem_append.2 ⟨hboth, hlater⟩⟩
  | loop place body rest ihBody ihRest =>
    obtain ⟨keepsBody, keepsRest⟩ := h.loop
    -- the body is walked from every head, so its hypothesis is needed of all of them
    obtain ⟨hhead, hheads, hevents⟩ := revisit_of_heads
      (fun _ hs => (ihBody keepsBody hs).2.1) h.join w.heuristics.maxLoopIterations hs
    obtain ⟨hreached, hstop, hlater⟩ := ihRest keepsRest hhead
    refine ⟨List.forall_mem_append.2 ⟨fun t ht => ?_, hreached⟩, hstop,
      List.forall_mem_append.2 ⟨fun e he => ?_, hlater⟩⟩
    · obtain ⟨head, hmem, ht⟩ := List.mem_flatMap.1 ht
      exact (ihBody keepsBody (hheads head hmem)).1 t ht
    · obtain ⟨head, hmem, he⟩ := hevents e he
      exact (ihBody keepsBody (hheads head hmem)).2.2 e he

theorem keeps_events (h : w.Keeps body R) (hentry : R w.entry) :
    ∀ e ∈ w.events body, R e.state := by
  obtain ⟨-, hstop, hevents⟩ := keeps_reached body h hentry
  intro e he
  unfold events at he
  split at he
  · next s es heq =>
    rw [heq] at hstop hevents
    rcases List.mem_append.1 he with he | he
    · exact hevents e he
    · obtain rfl := List.mem_singleton.1 he
      exact hstop s rfl
  · next es heq =>
    rw [heq] at hevents
    exact hevents e he

end Walk

/-! ### Walks within a vocabulary -/

def Instruction.Fits (V : Vocabulary) : Instruction → Prop
  | .fieldRead _ _ field => V.path [field]
  | .fieldWrite _ field _ => V.path [field]
  | _ => True

theorem Instruction.fits_of_path {V : Vocabulary} (h : ∀ p, V.path p) :
    ∀ i : Instruction, i.Fits V
  | .fieldRead _ _ _ | .fieldWrite _ _ _ => h _
  | .fresh _ | .move _ _ | .call _ _ _ => trivial

theorem Block.mem_calls_of_mem_instructions {body : Body} {position : Nat} {callee : String}
    {args : List String} {result : Option String}
    (h : (position, .call callee args result) ∈ body.instructions) :
    (position, callee) ∈ body.calls := by
  induction body with
  | done => cases h
  | leave place value rest ih => exact ih h
  | run place i rest ih =>
    rcases List.mem_cons.1 h with heq | h
    · cases heq
      exact List.mem_cons_self
    · exact Block.calls_subset_run place i rest (ih h)
  | branch place taken skipped rest ihTaken ihSkipped ihRest =>
    rw [instructions, List.mem_append, List.mem_append] at h
    rw [calls, List.mem_append, List.mem_append]
    exact h.imp (Or.imp ihTaken ihSkipped) ihRest
  | loop place body rest ihBody ihRest =>
    rw [instructions, List.mem_append] at h
    rw [calls, List.mem_append]
    exact h.imp ihBody ihRest

namespace Walk

open Walk (Gathered)

def stepAt (w : Walk) (call : Nat × String) (port : Port) : Step :=
  ⟨w.method.name, call.1, call.2, port.render⟩

structure Fits (V : Vocabulary) (w : Walk) (body : Body) : Prop where
  closed : V.Closed w.heuristics.maxFieldDepth
  entry : w.entry.Fits V
  origins : ∀ i ∈ body.instructions, V.origin ⟨w.method.id, .instruction i.1⟩
  fields : ∀ i ∈ body.instructions, i.2.Fits V
  callees : ∀ call ∈ body.calls, (w.summaries call.2).Fits V w.heuristics (w.stepAt call)

variable {V : Vocabulary} {w : Walk} {body : Body} {s : State}

/-- Parameters hold their own frames and what is declared for them. -/
theorem entry_fits (hV : V.Closed w.heuristics.maxFieldDepth)
    (horigins : ∀ i < w.method.parameters.length, V.origin ⟨w.method.id, .parameter i⟩)
    (hown : ∀ i < w.method.parameters.length, V.frames (.singleton (.ofArgument i []) ∅))
    (hdeclared : ∀ e ∈ (w.method.declared.getD ∅).parameterSources.entries,
      V.path e.1.path ∧ V.frames e.2) : w.entry.Fits V := by
  have hlocation {i : Nat} (hi : i < w.method.parameters.length) :
      Location.Fits V (.parameter w.method.id i) := Location.fits_origin (horigins i hi)
  rw [entry_eq]
  refine List.foldlRecOn _ _ ?_ fun s hs e he => ?_
  · refine List.foldlRecOn _ _ State.fits_empty fun s hs p hp => ?_
    have hindex : p.2 < w.method.parameters.length := by
      obtain ⟨-, hlt, -⟩ := List.mem_zipIdx hp
      simpa using hlt
    have htree : (ownTree p.2).Fits V := hown p.2 hindex
    refine (hs.bind p.1 fun l hl => ?_).writeAt hV (hlocation hindex) Vocabulary.path_nil htree true
    obtain rfl := List.mem_singleton.1 (OrdSet.mem_ofList.1 hl)
    exact hlocation hindex
  · obtain ⟨hport, hframes⟩ := hdeclared e he
    unfold seed
    simp only
    split
    · next index _ =>
      split
      · next hindex =>
        have htree : (TaintTree.leaf e.2).Fits V := hframes
        exact hs.writeAt hV (hlocation hindex) (Vocabulary.path_normalize hport _) htree false
      · exact hs
    · exact hs

theorem argumentsFit_callAt (hs : s.Fits V) {position : Nat} {callee : String}
    {args : List String} : (w.callAt position callee args s).ArgumentsFit V := fun L hL => by
  obtain ⟨register, -, rfl⟩ := List.mem_map.1 hL
  exact hs.bound register

theorem Fits.apply (hw : w.Fits V body) {i : Nat × Instruction} (hi : i ∈ body.instructions)
    (hs : s.Fits V) : (w.apply i.1 i.2 s).1.Fits V := by
  have hfresh := hw.origins i hi
  have hfields := hw.fields i hi
  obtain ⟨position, instruction⟩ := i
  cases instruction with
  | fresh dest =>
    refine hs.bind dest fun l hl => ?_
    obtain rfl := List.mem_singleton.1 (OrdSet.mem_ofList.1 hl)
    exact Location.fits_origin hfresh
  | move dest src => exact hs.bind dest (hs.bound src)
  | fieldRead dest base field =>
    refine hs.bind dest fun l hl => ?_
    obtain ⟨own, hown, rfl⟩ := OrdSet.mem_map.1 hl
    exact (hs.bound base own hown).field hw.closed hfields
  | fieldWrite base field src =>
    exact hs.writeAll hw.closed (hs.bound base) hfields
      (hs.readAll hw.closed (hs.bound src) Vocabulary.path_nil) true
  | call callee args result =>
    exact Call.run_fits (c := w.callAt position callee args s) hw.closed
      (argumentsFit_callAt hs) hfresh
      (hw.callees _ (Block.mem_calls_of_mem_instructions hi)) hs result

theorem Fits.keeps (hw : w.Fits V body) : w.Keeps body (State.Fits V) :=
  ⟨fun _ hi _ => hw.apply hi, fun _ _ hs ht => hs.join hw.closed ht⟩

theorem Fits.reached (hw : w.Fits V body) : ∀ s ∈ w.reached body w.entry, s.Fits V :=
  (keeps_reached body hw.keeps hw.entry).1

theorem Fits.events (hw : w.Fits V body) : ∀ e ∈ w.events body, e.state.Fits V :=
  keeps_events hw.keeps hw.entry

theorem Fits.returned (hw : w.Fits V body) : (w.gather body).returned.Fits V := by
  rw [gather_eq]
  refine List.foldlRecOn (motive := fun g : Gathered => g.returned.Fits V) _ _
    (TaintTree.fits_empty hw.closed) fun g hg e he => ?_
  have hstate := hw.events e he
  cases e with
  | run position instruction s => exact hg
  | leave value s =>
    cases value with
    | none => exact hg
    | some register =>
      exact hg.join hw.closed (hstate.readAll hw.closed (hstate.bound register) Vocabulary.path_nil)

theorem Fits.exit (hw : w.Fits V body) : ∀ s, (w.gather body).exit = some s → s.Fits V := by
  rw [gather_eq]
  refine List.foldlRecOn (motive := fun g : Gathered => ∀ s, g.exit = some s → s.Fits V) _ _
    nofun fun g hg e he => ?_
  have hstate := hw.events e he
  cases e with
  | run position instruction s => exact hg
  | leave value s =>
    have hexit : (w.record g (.leave value s)).exit =
        some (g.exit.elim s (State.join · s w.heuristics.maxFieldDepth)) := by
      cases value <;> rfl
    intro t ht
    rw [hexit] at ht
    cases hown : g.exit with
    | none =>
      rw [hown] at ht
      exact Option.some.inj ht ▸ hstate
    | some own =>
      rw [hown] at ht
      exact Option.some.inj ht ▸ (hg own hown).join hw.closed hstate

/-- What is observed at an event: a sink of a callee, and frames that reach its port. -/
theorem Fits.observed (hw : w.Fits V body) {e : Event} (he : e ∈ w.events body) {o : Observation}
    (ho : o ∈ w.observedAt e) :
    (∃ call ∈ body.calls, ∃ model, w.summaries call.2 = .modeled model ∧
      ∃ sinks ∈ model.sinks.entries, ∃ own ∈ OrdMap.entries sinks.2,
        o.port = sinks.1.normalize w.heuristics.maxFieldDepth ∧ o.sink = own.1 ∧
          o.info = own.2.addStep (w.stepAt call o.port) w.heuristics.maxTraceLength) ∧
      ∃ reached, V.frames reached ∧ o.parameters = reached.arguments ∧
        o.sources = OrdMap.filter (fun f _ => o.sink.admits f) reached.sources := by
  have hs := hw.events e he
  cases e with
  | leave value s => cases ho
  | run position instruction s =>
    obtain ⟨callee, args, result, rfl, -, -⟩ := isCall_of_mem_apply ho
    have hcall := mem_calls_of_mem_trail body w.entry (mem_events_run.1 he)
    obtain ⟨⟨model, hmodel, hsinks⟩, hreached⟩ :=
      Call.observed_fits (c := w.callAt position callee args s) hw.closed (argumentsFit_callAt hs)
        (hw.callees _ hcall) hs ho
    exact ⟨⟨(position, callee), hcall, model, hmodel, hsinks⟩, hreached⟩

end Walk

end TaintFlow
