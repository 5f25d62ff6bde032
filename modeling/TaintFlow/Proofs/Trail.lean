import TaintFlow.MethodAnalysis
import TaintFlow.Proofs.Containers

/-!
The trail of a walk: the instructions that it runs and the places where it leaves the method, each
with the state at it, in order. A walk only ever adds to what it gathered, one event after another,
so that `gather` is a fold over the trail (`gather_eq`). What is known about callees enters at calls
only, hence an analysis depends on the callees that its body calls and on no other (`run_congr`).
-/

namespace TaintFlow

namespace Walk

inductive Event where
  | run (position : Nat) (instruction : Instruction) (state : State)
  | leave (value : Option String) (state : State)

def Event.state : Event → State
  | .run _ _ s => s
  | .leave _ s => s

def callAt (w : Walk) (position : Nat) (callee : String) (args : List String) (s : State) : Call :=
  ⟨w.method.name, ⟨w.method.id, position⟩, callee, args.map s.read⟩

variable (w : Walk)

def record (g : Gathered) : Event → Gathered
  | .run position instruction s =>
    { g with observations := g.observations.addAll (w.apply position instruction s).2 }
  | .leave value s => w.leaveIn s (w.returnValue value s g)

def revisit (pass : State → Option State × List Event) : Nat → State → State × List Event
  | 0, head => (head, [])
  | passes + 1, head =>
    let depth := w.heuristics.maxFieldDepth
    match pass head with
    | (none, es) => (head, es)
    | (some stop, es) =>
      if stop.le head depth then (head.join stop depth, es)
      else
        let (last, later) := revisit pass passes (head.join stop depth)
        (last, es ++ later)

/-- The state after a block, and the events in it. -/
def trail : Body → State → Option State × List Event
  | .done, s => (some s, [])
  | .run place instruction rest, s =>
    let (stop, es) := trail rest (w.apply place.position instruction s).1
    (stop, .run place.position instruction s :: es)
  | .leave _ value _, s => (none, [.leave value s])
  | .branch _ taken skipped rest, s =>
    let (taken, es) := trail taken s
    let (skipped, es') := trail skipped s
    match w.meet taken skipped with
    | some s =>
      let (stop, later) := trail rest s
      (stop, es ++ es' ++ later)
    | none => (none, es ++ es')
  | .loop _ body rest, s =>
    let (head, es) := w.revisit (trail body) w.heuristics.maxLoopIterations s
    let (stop, later) := trail rest head
    (stop, es ++ later)

/-- All events of a body. Its end is an exit without a value. -/
def events (body : Body) : List Event :=
  match w.trail body w.entry with
  | (some s, es) => es ++ [.leave none s]
  | (none, es) => es

/-- Where arms end in related states, so does the branch. -/
theorem meet_rel {v w : Walk} {r : State → State → Prop}
    (hjoin : ∀ s t s' t', r s s' → r t t' →
      r (s.join t v.heuristics.maxFieldDepth) (s'.join t' w.heuristics.maxFieldDepth))
    {taken taken' skipped skipped' : Option State} (htaken : Option.Rel r taken taken')
    (hskipped : Option.Rel r skipped skipped') :
    Option.Rel r (v.meet taken skipped) (w.meet taken' skipped') := by
  unfold meet
  cases htaken with
  | none => exact hskipped
  | some ht =>
    cases hskipped with
    | none => exact .some ht
    | some hs => exact .some (hjoin _ _ _ _ ht hs)

theorem iterate_eq {walked : State → Gathered → Option State × Gathered}
    {pass : State → Option State × List Event}
    (h : ∀ s g, walked s g = ((pass s).1, (pass s).2.foldl w.record g)) (passes : Nat)
    (head : State) (g : Gathered) :
    w.iterate walked passes head g =
      ((w.revisit pass passes head).1, (w.revisit pass passes head).2.foldl w.record g) := by
  induction passes generalizing head g with
  | zero => rfl
  | succ passes ih =>
    rw [iterate, revisit, h]
    rcases pass head with ⟨_ | stop, es⟩
    · rfl
    · by_cases hle : stop.le head w.heuristics.maxFieldDepth = true
      · simp only [hle, if_true]
      · simp only [hle, Bool.false_eq_true, if_false, ih, List.foldl_append]

theorem walk_eq (body : Body) (s : State) (g : Gathered) :
    w.walk body s g = ((w.trail body s).1, (w.trail body s).2.foldl w.record g) := by
  induction body generalizing s g with
  | done => rfl
  | run place instruction rest ih => exact ih _ _
  | leave place value rest => rfl
  | branch place taken skipped rest ihTaken ihSkipped ihRest =>
    simp only [walk, trail, ihTaken, ihSkipped]
    cases w.meet (w.trail taken s).1 (w.trail skipped s).1 with
    | none => simp only [List.foldl_append]
    | some s' => simp only [ihRest, List.foldl_append]
  | loop place body rest ihBody ihRest =>
    simp only [walk, trail, w.iterate_eq ihBody, ihRest, List.foldl_append]

/-- A walk gathers the events of the body, one after another. -/
theorem gather_eq (body : Body) : w.gather body = (w.events body).foldl w.record ∅ := by
  rw [gather, events, walk_eq]
  rcases w.trail body w.entry with ⟨_ | s, es⟩
  · rfl
  · simp only [List.foldl_append]
    rfl

/-! ### Observations of a walk -/

theorem record_observations (g : Gathered) (e : Event) :
    (w.record g e).observations =
      match e with
      | .run position instruction s => g.observations.addAll (w.apply position instruction s).2
      | .leave _ _ => g.observations := by
  cases e with
  | run position instruction s => rfl
  | leave value s => cases value <;> rfl

def observedAt : Event → List Observation
  | .run position instruction s => (w.apply position instruction s).2
  | .leave _ _ => []

/-- The observations of a walk are those of its events, in order. -/
theorem observations_gather (body : Body) :
    (w.gather body).observations =
      (∅ : Observations).addAll ((w.events body).flatMap w.observedAt) := by
  have hfold (es : List Event) (g : Gathered) : (es.foldl w.record g).observations =
      g.observations.addAll (es.flatMap w.observedAt) := by
    induction es generalizing g with
    | nil => rfl
    | cons e es ih =>
      rw [List.foldl_cons, ih, record_observations, List.flatMap_cons]
      simp only [Observations.addAll, List.foldl_append]
      cases e <;> rfl
  rw [gather_eq, hfold]
  rfl

end Walk

/-- Observations are listed under their own keys. -/
theorem Observations.keyed_addAll (news : List Observation) :
    OrdMap.Keyed Observation.key ((∅ : Observations).addAll news) := by
  have hjoin (o o' : Observation) : (o.join o').key = o.key := rfl
  exact OrdMap.keyed_empty.foldl hjoin news

/-- A question that joins answer with yes if and only if one of their sides does is answered with
yes under a key if and only if it is for something added there. -/
theorem Observations.exists_addAll {P : Observation → Prop}
    (hjoin : ∀ o o', P (o.join o') ↔ P o ∨ P o') (news : List Observation) (os : Observations)
    (k : Observation.Key) :
    (∃ o, (os.addAll news).get? k = some o ∧ P o) ↔
      (∃ o, os.get? k = some o ∧ P o) ∨ ∃ o ∈ news, o.key = k ∧ P o := by
  refine foldl_iff (P := fun os : Observations => ∃ o, os.get? k = some o ∧ P o)
    (fun os new => ?_) news os
  rw [add, OrdMap.get?_alter]
  by_cases hk : k = new.key
  · subst hk
    cases hown : os.get? new.key with
    | none => simp
    | some own => simp [hjoin]
  · simp [hk, Ne.symm hk]

/-! ### Sites -/

/-- What holds of all observations that are added, and of any two that are joined, holds of every
observation. -/
theorem Observations.forall_addAll {P : Observation → Prop}
    (hjoin : ∀ o o', P o → P (o.join o')) (news : List Observation) (hnews : ∀ o ∈ news, P o)
    {os : Observations} (hos : ∀ k o, os.get? k = some o → P o) {k : Observation.Key}
    {o : Observation} (h : (os.addAll news).get? k = some o) : P o := by
  induction news generalizing os with
  | nil => exact hos k o h
  | cons new news ih =>
    refine ih (fun o ho => hnews o (List.mem_cons_of_mem new ho)) (fun k o ho => ?_) h
    rw [add, OrdMap.get?_alter] at ho
    split at ho
    · cases hown : os.get? new.key with
      | none =>
        rw [hown] at ho
        cases ho
        exact hnews new List.mem_cons_self
      | some own =>
        rw [hown] at ho
        cases ho
        exact hjoin own new (hos _ own hown)
    · exact hos k o ho

/-- What holds of all that is observed holds of all observations, if joins at one sink keep it. -/
theorem Observations.forall_addAll_of_key {Q : Observation → Prop} {news : List Observation}
    (hnews : ∀ o ∈ news, Q o) (hjoin : ∀ o o', Q o → Q o' → o.key = o'.key → Q (o.join o'))
    {k : Observation.Key} {o : Observation} (ho : ((∅ : Observations).addAll news).get? k = some o) :
    Q o := by
  suffices h : ∀ k o, ((∅ : Observations).addAll news).get? k = some o → o.key = k ∧ Q o from
    (h k o ho).2
  refine List.foldlRecOn (motive := fun os : Observations =>
    ∀ k o, os.get? k = some o → o.key = k ∧ Q o) news _ (fun _ _ h => by cases h)
    fun os hos new hnew k o ho => ?_
  rw [add, OrdMap.get?_alter] at ho
  split at ho
  · next hk =>
    subst hk
    cases hown : os.get? new.key with
    | none =>
      rw [hown] at ho
      cases ho
      exact ⟨rfl, hnews _ hnew⟩
    | some own =>
      rw [hown] at ho
      cases ho
      obtain ⟨hkey, hQ⟩ := hos _ own hown
      exact ⟨hkey, hjoin own new hQ (hnews new hnew) hkey⟩
  · exact hos k o ho

/-- What is observed at a call has its site and its callee. -/
theorem Call.of_mem_run {h : Heuristics} {c : Call} {callee : Callee}
    {result : Option String} {s : State} {o : Observation}
    (ho : o ∈ (c.run h callee result s).2) : o.site = c.site ∧ o.callee = c.callee := by
  cases callee with
  | obscure => cases ho
  | modeled model =>
    obtain ⟨e, -, he⟩ := List.mem_flatMap.1 ho
    simp only [observeAt] at he
    split at he
    · cases he
    · obtain ⟨_, -, rfl⟩ := List.mem_map.1 he
      exact ⟨rfl, rfl⟩

theorem Block.calls_subset_run (place : Place Nat) (i : Instruction) (rest : Body) :
    rest.calls ⊆ (Block.run place i rest).calls := by
  cases i with
  | call callee args result => exact List.subset_cons_self _ _
  | fresh dest => exact List.Subset.refl _
  | move dest src => exact List.Subset.refl _
  | fieldRead dest base field => exact List.Subset.refl _
  | fieldWrite base field src => exact List.Subset.refl _

namespace Walk

variable {w : Walk} {position : Nat} {o : Observation}

/-- Only calls are observed. -/
theorem isCall_of_mem_apply {instruction : Instruction} {s : State}
    (ho : o ∈ (w.apply position instruction s).2) :
    ∃ callee args result, instruction = .call callee args result ∧ o.callee = callee ∧
      o.site = ⟨w.method.id, position⟩ := by
  cases instruction with
  | call callee args result =>
    obtain ⟨hsite, hcallee⟩ := Call.of_mem_run ho
    exact ⟨callee, args, result, rfl, hcallee, hsite⟩
  | fresh dest => cases ho
  | move dest src => cases ho
  | fieldRead dest base field => cases ho
  | fieldWrite base field src => cases ho

theorem method_of_mem_observedAt {e : Event} (ho : o ∈ w.observedAt e) :
    o.site.method = w.method.id := by
  cases e with
  | leave value s => cases ho
  | run position instruction s =>
    obtain ⟨_, _, _, -, -, hsite⟩ := isCall_of_mem_apply ho
    rw [hsite]

theorem mem_events_run {body : Body} {instruction : Instruction} {s : State} :
    .run position instruction s ∈ w.events body ↔
      .run position instruction s ∈ (w.trail body w.entry).2 := by
  unfold events
  rcases w.trail body w.entry with ⟨_ | t, es⟩ <;> simp

/-- What holds of all events of every pass holds of all events of a loop. -/
theorem forall_mem_revisit {P : Event → Prop} {pass : State → Option State × List Event}
    (h : ∀ s, ∀ e ∈ (pass s).2, P e) (passes : Nat) (s : State) :
    ∀ e ∈ (w.revisit pass passes s).2, P e := by
  induction passes generalizing s with
  | zero => exact nofun
  | succ passes ih =>
    have hpass := h s
    rw [revisit]
    rcases hp : pass s with ⟨_ | stop, es⟩
    · rw [hp] at hpass
      exact hpass
    · rw [hp] at hpass
      by_cases hle : stop.le s w.heuristics.maxFieldDepth = true
      · simp only [hle, if_true]
        exact hpass
      · simp only [hle, Bool.false_eq_true, if_false]
        exact List.forall_mem_append.2 ⟨hpass, ih _⟩

/-- A walk runs the calls of the body. -/
theorem mem_calls_of_mem_trail {callee : String} {args : List String} {result : Option String}
    {t : State} (body : Body) (s : State)
    (h : .run position (.call callee args result) t ∈ (w.trail body s).2) :
    (position, callee) ∈ body.calls := by
  induction body generalizing s with
  | done => cases h
  | leave place value rest => cases List.mem_singleton.1 h
  | run place instruction rest ih =>
    rcases List.mem_cons.1 h with heq | h
    · cases heq
      exact List.mem_cons_self
    · exact Block.calls_subset_run place instruction rest (ih _ h)
  | branch place taken skipped rest ihTaken ihSkipped ihRest =>
    have harms (h : .run position (.call callee args result) t ∈
        (w.trail taken s).2 ++ (w.trail skipped s).2) : (position, callee) ∈
          (Block.branch place taken skipped rest).calls :=
      List.mem_append_left _ (List.mem_append.2 ((List.mem_append.1 h).imp (ihTaken s) (ihSkipped s)))
    rw [trail] at h
    simp only at h
    split at h
    · exact (List.mem_append.1 h).elim harms fun h => List.mem_append_right _ (ihRest _ h)
    · exact harms h
  | loop place body rest ihBody ihRest =>
    rcases List.mem_append.1 h with h | h
    · refine List.mem_append_left _ ?_
      exact forall_mem_revisit (P := fun e => e = .run position (.call callee args result) t → _)
        (fun s e he heq => ihBody s (heq ▸ he)) _ s _ h rfl
    · exact List.mem_append_right _ (ihRest _ h)

/-- What is observed at an event is observed at a call of the body. -/
theorem call_of_mem_observedAt {body : Body} {e : Event} (he : e ∈ w.events body)
    (ho : o ∈ w.observedAt e) : (o.site.position, o.callee) ∈ body.calls := by
  cases e with
  | leave value s => cases ho
  | run position instruction s =>
    obtain ⟨_, _, _, rfl, rfl, hsite⟩ := isCall_of_mem_apply ho
    rw [hsite]
    exact mem_calls_of_mem_trail body w.entry (mem_events_run.1 he)

end Walk

namespace MethodAnalysis

variable {w : Walk} {o : Observation}

/-- What holds of all that is observed at events, and is kept where observations are joined, holds of
the observations of a method. -/
theorem forall_mem_observations {P : Observation → Prop}
    (hjoin : ∀ o o', P o → P o' → o.key = o'.key → P (o.join o'))
    (h : ∀ body, w.method.body = some body → ∀ e ∈ w.events body, ∀ o ∈ w.observedAt e, P o)
    (ho : o ∈ (run w).observations) : P o := by
  unfold run at ho
  split at ho
  · cases ho
  · next body hbody =>
    obtain ⟨k, hk⟩ := OrdMap.mem_values.1 ho
    rw [Walk.observations_gather] at hk
    refine Observations.forall_addAll_of_key (fun o ho => ?_) hjoin hk
    obtain ⟨e, he, ho⟩ := List.mem_flatMap.1 ho
    exact h body hbody e he o ho

/-- What is observed in a method is observed at its own calls. -/
theorem method_of_mem_observations (ho : o ∈ (run w).observations) : o.site.method = w.method.id :=
  forall_mem_observations (P := fun o => o.site.method = w.method.id) (fun _ _ h _ _ => h)
    (fun _ _ _ _ _ => Walk.method_of_mem_observedAt) ho

/-- An observation is at a call of the body, and names its callee. -/
theorem call_of_mem_observations {body : Body} (hbody : w.method.body = some body)
    (ho : o ∈ (run w).observations) : (o.site.position, o.callee) ∈ body.calls := by
  refine forall_mem_observations (P := fun o => (o.site.position, o.callee) ∈ body.calls)
    (fun _ _ h _ _ => h) (fun body' hbody' e he o ho => ?_) ho
  obtain rfl := Option.some.inj (hbody.symm.trans hbody')
  exact Walk.call_of_mem_observedAt he ho

end MethodAnalysis

/-! ### Callees -/

theorem Walk.iterate_congr (w w' : Walk) (h : w.heuristics = w'.heuristics) :
    w.iterate = w'.iterate := by
  funext pass passes
  induction passes with
  | zero => rfl
  | succ passes ih =>
    funext head g
    rw [iterate, iterate, h, ih]

theorem Walk.walk_congr {m : Method} {h : Heuristics} {f f' : String → Callee} {body : Body}
    (hf : ∀ call ∈ body.calls, f call.2 = f' call.2) :
    Walk.walk ⟨m, h, f⟩ body = Walk.walk ⟨m, h, f'⟩ body := by
  induction body with
  | done => rfl
  | leave place value rest => rfl
  | run place instruction rest ih =>
    funext s g
    cases instruction with
    | call callee args result =>
      have hcallee : f callee = f' callee := hf (place.position, callee) List.mem_cons_self
      have hrest := ih fun call hcall => hf call (List.mem_cons_of_mem _ hcall)
      simp only [walk, apply, hcallee, hrest]
    | fresh dest => simp only [walk, apply, ih hf]
    | move dest src => simp only [walk, apply, ih hf]
    | fieldRead dest base field => simp only [walk, apply, ih hf]
    | fieldWrite base field src => simp only [walk, apply, ih hf]
  | branch place taken skipped rest ihTaken ihSkipped ihRest =>
    funext s g
    simp only [Block.calls, List.mem_append] at hf
    simp only [walk, ihTaken fun call hc => hf call (.inl (.inl hc)),
      ihSkipped fun call hc => hf call (.inl (.inr hc)), ihRest fun call hc => hf call (.inr hc)]
    rfl
  | loop place body rest ihBody ihRest =>
    funext s g
    simp only [Block.calls, List.mem_append] at hf
    simp only [walk, ihBody fun call hc => hf call (.inl hc),
      ihRest fun call hc => hf call (.inr hc),
      iterate_congr ⟨m, h, f⟩ ⟨m, h, f'⟩ rfl]

/-- The analysis of a method depends on what is known about the callees in its body only. -/
theorem MethodAnalysis.run_congr {m : Method} {h : Heuristics} {f f' : String → Callee}
    (hf : ∀ call ∈ m.calls, f call.2 = f' call.2) : run ⟨m, h, f⟩ = run ⟨m, h, f'⟩ := by
  unfold run
  cases hbody : m.body with
  | none => rfl
  | some body =>
    have hwalk : Walk.walk ⟨m, h, f⟩ body = Walk.walk ⟨m, h, f'⟩ body :=
      Walk.walk_congr (by simpa [Method.calls, hbody] using hf)
    have hgather : Walk.gather ⟨m, h, f⟩ body = Walk.gather ⟨m, h, f'⟩ body := by
      unfold Walk.gather
      rw [hwalk]
      rfl
    simp only [hgather]
    rfl

end TaintFlow
