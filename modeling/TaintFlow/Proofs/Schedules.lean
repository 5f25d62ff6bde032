import Mathlib.Logic.Function.Basic
import TaintFlow.Proofs.CallLevels
import TaintFlow.Proofs.Jobs

/-!
Components of one level do not interfere. Every operation looks at what is known about one method
(`target?`), and operations on different methods commute (`perform_comm`). A component writes to
its own methods only, and reads those and their callees (`OpOf`), which are never in another
component of the same level. Hence an operation of one component may be moved past the whole
analysis of another, and whatever the schedule, it comes to what the components come to one after
another (`follow_level`).
-/

namespace TaintFlow

namespace Analysis

open Walk (Gathered)

variable (a : Analysis)

/-! ### What is known about one method -/

/-- All that is known about one method. -/
@[ext]
structure Share where
  summary : Option Model
  matched : Option Matched
  /-- The halves that wait at its calls, by rule code, position and label. -/
  waiting : Int → Nat → String → Option FrameSet

def Progress.share (p : Progress) (k : MethodId) : Share where
  summary := p.summaries.get? k
  matched := p.matched.get? k
  waiting rule position label := p.stash.halves.get? (rule, ⟨k, position⟩, label)

theorem Progress.ext_share {p q : Progress} (h : ∀ k, p.share k = q.share k) : p = q := by
  have hsummaries : p.summaries = q.summaries :=
    OrdMap.ext fun k => congrArg Share.summary (h k)
  have hmatched : p.matched = q.matched := OrdMap.ext fun k => congrArg Share.matched (h k)
  have hhalves : p.stash.halves = q.stash.halves := OrdMap.ext fun (rule, site, label) =>
    congrFun (congrFun (congrFun (congrArg Share.waiting (h site.method)) rule) site.position) label
  obtain ⟨summaries, ⟨halves⟩, matched⟩ := p
  obtain ⟨summaries', ⟨halves'⟩, matched'⟩ := q
  simp_all

theorem share_eq_iff {p q : Progress} {k : MethodId} :
    p.share k = q.share k ↔
      p.summaries.get? k = q.summaries.get? k ∧ p.matched.get? k = q.matched.get? k ∧
        Stash.AgreeOn (fun _ site => site.method = k) p.stash q.stash := by
  constructor
  · intro h
    refine ⟨congrArg Share.summary h, congrArg Share.matched h, ?_⟩
    rintro rule ⟨_, position⟩ label rfl
    exact congrFun (congrFun (congrFun (congrArg Share.waiting h) rule) position) label
  · rintro ⟨hsummary, hmatched, hstash⟩
    refine Share.ext hsummary hmatched ?_
    ext rule position label : 3
    exact hstash rule ⟨k, position⟩ label rfl

/-! ### Operations on different methods -/

def target? : Op → Option MethodId
  | .read callee => (a.program.lookup callee).map Method.id
  | .clear m | .update m _ | .record m _ => some m
  | .fulfill _ site _ _ _ => some site.method

variable {a} {op op' : Op} {p q : Progress} {k : MethodId}

theorem grow_stash {m : MethodId} {model : Model} : (p.grow m model).2.stash = p.stash := by
  unfold Progress.grow
  simp only
  split <;> rfl

/-- An operation changes nothing about methods that it does not look at. -/
theorem perform_share_of_ne (h : a.target? op ≠ some k) :
    (a.perform op p).2.share k = p.share k := by
  have hne {m : MethodId} (hm : a.target? op = some m) : k ≠ m := fun heq => h (heq ▸ hm)
  refine share_eq_iff.2 ?_
  cases op with
  | read callee => exact ⟨rfl, rfl, .refl _ _⟩
  | clear m =>
    refine ⟨rfl, rfl, fun rule site label hsite => ?_⟩
    exact (Stash.get?_clear _ _ _ _ _).trans (if_neg (hsite ▸ hne rfl))
  | fulfill rule site label other sources =>
    exact ⟨rfl, rfl, Stash.fulfill_elsewhere label other sources (hne rfl).symm⟩
  | update m inferred =>
    have hkept : (p.grow m inferred).2.summaries.get? k = p.summaries.get? k := by
      rw [grow_summaries]
      split
      · rfl
      · rw [OrdMap.get?_insert, if_neg (hne rfl)]
    refine ⟨hkept, congrArg (OrdMap.get? · k) grow_matched, ?_⟩
    show Stash.AgreeOn _ (p.grow m inferred).2.stash p.stash
    rw [grow_stash]
    exact .refl _ _
  | record m matched =>
    exact ⟨rfl, (OrdMap.get?_insert _ _ _ _).trans (if_neg (hne rfl)), .refl _ _⟩

/-- What an operation answers and does depends only on what is known about its method. -/
theorem perform_congr (h : ∀ k, a.target? op = some k → p.share k = q.share k) :
    (a.perform op p).1 = (a.perform op q).1 ∧
      ∀ k, a.target? op = some k → (a.perform op p).2.share k = (a.perform op q).2.share k := by
  cases op with
  | read name =>
    have hcallee : a.callee p name = a.callee q name := callee_congr fun callee hcallee =>
      congrArg Share.summary (h callee.id (congrArg (Option.map Method.id) hcallee))
    exact ⟨hcallee, h⟩
  | clear m =>
    obtain ⟨hsummary, hmatched, -⟩ := share_eq_iff.1 (h m rfl)
    refine ⟨rfl, fun k hk => ?_⟩
    cases hk
    refine share_eq_iff.2 ⟨hsummary, hmatched, fun rule site label hsite => ?_⟩
    simp only [perform, Stash.get?_clear, if_pos hsite]
  | fulfill rule site label other sources =>
    obtain ⟨hsummary, hmatched, hstash⟩ := share_eq_iff.1 (h site.method rfl)
    obtain ⟨hmet, hrest⟩ := Stash.fulfill_agree label other sources hstash rfl
    refine ⟨hmet, fun k hk => ?_⟩
    cases hk
    exact share_eq_iff.2 ⟨hsummary, hmatched, hrest⟩
  | update m inferred =>
    obtain ⟨hsummary, hmatched, hstash⟩ := share_eq_iff.1 (h m rfl)
    have hown : p.summaries.getD m ∅ = q.summaries.getD m ∅ := congrArg (Option.getD · ∅) hsummary
    have hanswer : (p.grow m inferred).1 = (q.grow m inferred).1 := by
      rw [grow_grown, grow_grown, hown]
    refine ⟨hanswer, fun k hk => ?_⟩
    cases hk
    refine share_eq_iff.2 ⟨?_, ?_, ?_⟩
    · simp only [perform, grow_summaries, hown]
      split
      · exact hsummary
      · rw [OrdMap.get?_insert, OrdMap.get?_insert, if_pos rfl, if_pos rfl]
    · simpa only [perform, grow_matched] using hmatched
    · simpa only [perform, grow_stash] using hstash
  | record m matched =>
    obtain ⟨hsummary, -, hstash⟩ := share_eq_iff.1 (h m rfl)
    refine ⟨rfl, fun k hk => ?_⟩
    cases hk
    refine share_eq_iff.2 ⟨hsummary, ?_, hstash⟩
    simp only [perform, OrdMap.get?_insert, if_true]

/-- Operations of which neither can disturb the other. -/
def Apart (a : Analysis) (op op' : Op) : Prop :=
  (∃ callee callee', op = .read callee ∧ op' = .read callee') ∨
    ∀ k, a.target? op = some k → a.target? op' ≠ some k

/-- Operations that are apart commute, and answer the same in either order. -/
theorem perform_comm (h : a.Apart op op') (p : Progress) :
    (a.perform op' (a.perform op p).2).1 = (a.perform op' p).1 ∧
      (a.perform op (a.perform op' p).2).1 = (a.perform op p).1 ∧
        (a.perform op (a.perform op' p).2).2 = (a.perform op' (a.perform op p).2).2 := by
  rcases h with ⟨callee, callee', rfl, rfl⟩ | h
  · exact ⟨rfl, rfl, rfl⟩
  · have hfirst : ∀ k, a.target? op' = some k → (a.perform op p).2.share k = p.share k :=
      fun k hk => perform_share_of_ne fun heq => h k heq hk
    have hsecond : ∀ k, a.target? op = some k → (a.perform op' p).2.share k = p.share k :=
      fun k hk => perform_share_of_ne (h k hk)
    obtain ⟨hanswer', hshare'⟩ := perform_congr hfirst
    obtain ⟨hanswer, hshare⟩ := perform_congr hsecond
    refine ⟨hanswer', hanswer, Progress.ext_share fun k => ?_⟩
    by_cases hk : a.target? op = some k
    · rw [hshare k hk, perform_share_of_ne (h k hk)]
    · by_cases hk' : a.target? op' = some k
      · rw [perform_share_of_ne hk, hshare' k hk']
      · rw [perform_share_of_ne hk, perform_share_of_ne hk', perform_share_of_ne hk',
          perform_share_of_ne hk]

/-- An operation may be moved past a job that it is apart from. -/
theorem runJob_comm {α : Type} {t : Job α} (h : t.Every (a.Apart op) fun _ => True)
    (p : Progress) :
    (a.perform op (a.runJob t p).2).1 = (a.perform op p).1 ∧
      a.runJob t (a.perform op p).2 = ((a.runJob t p).1, (a.perform op (a.runJob t p).2).2) := by
  induction t generalizing p with
  | done result => exact ⟨rfl, rfl⟩
  | step op' next ih =>
    obtain ⟨hanswer', hanswer, hafter⟩ := perform_comm h.1 p
    obtain ⟨hlast, hrun⟩ := ih (a.perform op' p).1 (h.2 _) (a.perform op' p).2
    rw [runJob_step, runJob_step, hanswer', ← hafter]
    exact ⟨hlast.trans hanswer, hrun⟩

/-! ### Schedules -/

section Schedules

variable {α ι : Type}

def runEach (a : Analysis) : List (Job α) → Progress → List α × Progress
  | [], p => ([], p)
  | t :: ts, p =>
    let (result, p) := a.runJob t p
    let (others, p) := runEach a ts p
    (result :: others, p)

theorem runEach_append (ts ts' : List (Job α)) (p : Progress) :
    a.runEach (ts ++ ts') p =
      ((a.runEach ts p).1 ++ (a.runEach ts' (a.runEach ts p).2).1,
        (a.runEach ts' (a.runEach ts p).2).2) := by
  induction ts generalizing p with
  | nil => rfl
  | cons t ts ih => simp [runEach, ih]

theorem runEach_comm {ts : List (Job α)} (h : ∀ t ∈ ts, t.Every (a.Apart op) fun _ => True)
    (p : Progress) :
    (a.perform op (a.runEach ts p).2).1 = (a.perform op p).1 ∧
      a.runEach ts (a.perform op p).2 =
        ((a.runEach ts p).1, (a.perform op (a.runEach ts p).2).2) := by
  induction ts generalizing p with
  | nil => exact ⟨rfl, rfl⟩
  | cons t ts ih =>
    obtain ⟨hanswer, hrun⟩ := runJob_comm (h t List.mem_cons_self) p
    obtain ⟨hlast, hruns⟩ := ih (fun t ht => h t (List.mem_cons_of_mem _ ht)) (a.runJob t p).2
    simp only [runEach, hrun, hruns]
    exact ⟨hlast.trans hanswer, trivial⟩

theorem runEach_done {order : List ι} {jobs : ι → Job α} {results : ι → α}
    (h : ∀ i ∈ order, jobs i = .done (results i))
    (p : Progress) : a.runEach (order.map jobs) p = (order.map results, p) := by
  induction order with
  | nil => rfl
  | cons i order ih =>
    have hrest := ih fun j hj => h j (List.mem_cons_of_mem i hj)
    simp only [List.map_cons, runEach, h i List.mem_cons_self, runJob, hrest]

variable [DecidableEq ι]

def advance (a : Analysis) (i : ι) (c : (ι → Job α) × Progress) : (ι → Job α) × Progress :=
  match c.1 i with
  | .done _ => c
  | .step op next => (Function.update c.1 i (next (a.perform op c.2).1), (a.perform op c.2).2)

/-- The operations of several jobs in the order of a schedule, which says whose operation is the
next one. -/
def follow (a : Analysis) (schedule : List ι) (c : (ι → Job α) × Progress) :
    (ι → Job α) × Progress :=
  schedule.foldl (fun c i => a.advance i c) c

def Independent (a : Analysis) (order : List ι) (P : ι → Op → Prop) (jobs : ι → Job α) : Prop :=
  (∀ i ∈ order, ∀ j ∈ order, i ≠ j → ∀ op op', P i op → P j op' → a.Apart op op') ∧
    ∀ i ∈ order, (jobs i).Every (P i) fun _ => True

variable {order : List ι} {P : ι → Op → Prop} {jobs : ι → Job α} {i : ι}

theorem Independent.update {op : Op} {next : op.Answer → Job α}
    (h : a.Independent order P jobs) (hi : i ∈ order) (hstep : jobs i = .step op next)
    (answer : op.Answer) : a.Independent order P (Function.update jobs i (next answer)) := by
  refine ⟨h.1, fun j hj => ?_⟩
  by_cases hji : j = i
  · subst hji
    rw [Function.update_self]
    exact (hstep ▸ h.2 j hj : (Job.step op next).Every (P j) _).2 answer
  · rw [Function.update_of_ne hji]
    exact h.2 j hj

/-- One operation leaves what the jobs come to one after another as it was. -/
theorem runEach_advance (hnodup : order.Nodup) (h : a.Independent order P jobs) (hi : i ∈ order)
    (p : Progress) :
    a.Independent order P (a.advance i (jobs, p)).1 ∧
      a.runEach (order.map (a.advance i (jobs, p)).1) (a.advance i (jobs, p)).2 =
        a.runEach (order.map jobs) p := by
  unfold advance
  simp only
  split
  · exact ⟨h, rfl⟩
  · next op next hstep =>
    refine ⟨h.update hi hstep _, ?_⟩
    obtain ⟨before, after, rfl⟩ := List.append_of_mem hi
    obtain ⟨-, hafter, hbefore⟩ := List.nodup_append.1 hnodup
    have hbefore : i ∉ before := fun hmem => hbefore i hmem i List.mem_cons_self rfl
    have hafter : i ∉ after := (List.nodup_cons.1 hafter).1
    have hmap {js : List ι} (hjs : i ∉ js) (t : Job α) :
        js.map (Function.update jobs i t) = js.map jobs :=
      List.map_congr_left fun j hj => Function.update_of_ne (ne_of_mem_of_not_mem hj hjs) _ _
    -- the operation is moved past the jobs that come before its own
    have hop : P i op := (hstep ▸ h.2 i hi : (Job.step op next).Every (P i) _).1
    have hapart : ∀ t ∈ before.map jobs, t.Every (a.Apart op) fun _ => True := by
      rintro _ ht
      obtain ⟨j, hj, rfl⟩ := List.mem_map.1 ht
      have hmem : j ∈ before ++ i :: after := List.mem_append.2 (.inl hj)
      refine (h.2 j hmem).imp fun op' hop' => ?_
      exact h.1 i hi j hmem (fun heq => hbefore (heq ▸ hj)) op op' hop hop'
    obtain ⟨hanswer, hrun⟩ := runEach_comm hapart p
    simp only [List.map_append, List.map_cons, hmap hbefore, hmap hafter, Function.update_self,
      runEach_append, runEach, hrun, hstep, runJob_step, hanswer]

/-- Any number of operations, in any order, leave what the jobs come to one after another as it
was. -/
theorem runEach_follow (hnodup : order.Nodup) (h : a.Independent order P jobs)
    {schedule : List ι} (hschedule : ∀ i ∈ schedule, i ∈ order) (p : Progress) :
    a.runEach (order.map (a.follow schedule (jobs, p)).1) (a.follow schedule (jobs, p)).2 =
      a.runEach (order.map jobs) p := by
  induction schedule generalizing jobs p with
  | nil => rfl
  | cons i schedule ih =>
    obtain ⟨hnext, hsame⟩ := runEach_advance hnodup h (hschedule i List.mem_cons_self) p
    exact (ih hnext (fun j hj => hschedule j (List.mem_cons_of_mem i hj)) _).trans hsame

end Schedules

/-! ### The operations of a component -/

/-- What the analysis of a method does: it reads the summaries of callees, and changes nothing but
what is known about the method. -/
def OpBy (m : Method) : Op → Prop
  | .read callee => ∃ call ∈ m.calls, call.2 = callee
  | .clear k | .update k _ | .record k _ => k = m.id
  | .fulfill _ site _ _ _ => site.method = m.id

def ObservedIn (m : Method) (g : Gathered) : Prop :=
  ∀ k o, g.observations.get? k = some o → o.site.method = m.id

variable {m : Method}

theorem applyJob_every {position : Nat} {i : Instruction}
    (h : ∀ callee args result, i = .call callee args result → (position, callee) ∈ m.calls)
    (s : State) :
    (a.applyJob m position i s).Every (OpBy m) fun r => ∀ o ∈ r.2, o.site.method = m.id := by
  have hsite (known : Callee) :
      ∀ o ∈ ((a.walkKnowing m known).apply position i s).2, o.site.method = m.id := fun o ho => by
    obtain ⟨_, _, _, -, -, hsite⟩ := Walk.isCall_of_mem_apply ho
    rw [hsite]
    rfl
  cases i with
  | call callee args result => exact ⟨⟨_, h callee args result rfl, rfl⟩, hsite⟩
  | fresh dest => exact hsite .obscure
  | move dest src => exact hsite .obscure
  | fieldRead dest base field => exact hsite .obscure
  | fieldWrite base field src => exact hsite .obscure

theorem iterateJob_every {pass : State → Gathered → Job (Option State × Gathered)}
    (h : ∀ s g, ObservedIn m g → (pass s g).Every (OpBy m) fun r => ObservedIn m r.2)
    (passes : Nat) (head : State) {g : Gathered} (hg : ObservedIn m g) :
    (a.iterateJob pass passes head g).Every (OpBy m) fun r => ObservedIn m r.2 := by
  induction passes generalizing head g with
  | zero => exact hg
  | succ passes ih =>
    refine (h head g hg).bind fun r hr => ?_
    rcases r with ⟨_ | stop, g⟩
    · exact hr
    · simp only
      split
      · exact hr
      · exact ih _ hr

theorem walkJob_every {body : Body} (hbody : ∀ call ∈ body.calls, call ∈ m.calls) (s : State)
    {g : Gathered} (hg : ObservedIn m g) :
    (a.walkJob m body s g).Every (OpBy m) fun r => ObservedIn m r.2 := by
  induction body generalizing s g with
  | done => exact hg
  | run place i rest ih =>
    have hcall : ∀ callee args result, i = .call callee args result →
        (place.position, callee) ∈ m.calls := by
      rintro callee args result rfl
      exact hbody _ List.mem_cons_self
    have hrest : ∀ call ∈ rest.calls, call ∈ m.calls := fun call hc =>
      hbody call (Block.calls_subset_run place i rest hc)
    refine (applyJob_every hcall s).bind fun r hr => ih hrest r.1 fun k o ho => ?_
    exact Observations.forall_addAll (P := fun o => o.site.method = m.id) (fun _ _ h => h) r.2 hr
      hg ho
  | leave place value rest =>
    show ObservedIn m ((a.blindWalk m).returnValue value s g)
    cases value <;> exact hg
  | branch place taken skipped rest ihTaken ihSkipped ihRest =>
    simp only [Block.calls, List.forall_mem_append] at hbody
    obtain ⟨⟨htaken, hskipped⟩, hrest⟩ := hbody
    refine (ihTaken htaken s hg).bind fun r hr => (ihSkipped hskipped s hr).bind fun r' hr' => ?_
    dsimp only
    split
    · exact ihRest hrest _ hr'
    · exact hr'
  | loop place body rest ihBody ihRest =>
    simp only [Block.calls, List.forall_mem_append] at hbody
    obtain ⟨hinner, hrest⟩ := hbody
    exact (iterateJob_every (fun s g hg => ihBody hinner s hg) _ s hg).bind fun r hr =>
      ihRest hrest r.1 hr

theorem analysisJob_every (m : Method) :
    (a.analysisJob m).Every (OpBy m) fun r => ∀ o ∈ r.observations, o.site.method = m.id := by
  unfold analysisJob
  split
  · exact fun o ho => by cases ho
  · next body hbody =>
    have hcalls : ∀ call ∈ body.calls, call ∈ m.calls := by
      rw [Method.calls, hbody]
      exact fun _ h => h
    refine (walkJob_every hcalls _ fun k o h => by cases h).bind fun r hr o ho => ?_
    obtain ⟨k, hk⟩ := OrdMap.mem_values.1 ho
    rcases r with ⟨_ | stop, g⟩ <;> exact hr k o hk

theorem inTurnJob_every {α β : Type} {P : Op → Prop} {job : α → Job (List β)} {xs : List α}
    (h : ∀ x ∈ xs, (job x).Every P fun _ => True) :
    (inTurnJob job xs).Every P fun _ => True := by
  induction xs with
  | nil => trivial
  | cons x xs ih =>
    exact (h x List.mem_cons_self).bind fun _ _ =>
      (ih fun y hy => h y (List.mem_cons_of_mem x hy)).bind fun _ _ => trivial

theorem hitsJob_every {o : Observation} (ho : o.site.method = m.id) :
    (a.hitsJob o).Every (OpBy m) fun _ => True := by
  unfold hitsJob
  split
  · trivial
  · split
    · trivial
    · refine inTurnJob_every fun h _ => ⟨ho, fun met => ?_⟩
      rcases met with _ | met <;> trivial
    · trivial

theorem checkJob_every {os : List Observation} (hos : ∀ o ∈ os, o.site.method = m.id) :
    (a.checkJob m os).Every (OpBy m) fun _ => True :=
  have hfindings : ∀ o ∈ os, (a.findingsJob m o).Every (OpBy m) fun _ => True := fun o ho =>
    (hitsJob_every (hos o ho)).bind fun _ _ => trivial
  ⟨rfl, fun _ => (inTurnJob_every hfindings).bind fun _ _ => trivial⟩

theorem visitJob_every (m : Method) : (a.visitJob m).Every (OpBy m) fun _ => True :=
  (analysisJob_every m).bind fun _ hos => (checkJob_every hos).bind fun _ _ =>
    ⟨rfl, fun _ => ⟨rfl, fun _ => trivial⟩⟩

def OpOf (a : Analysis) (c : Component) (op : Op) : Prop := ∃ m ∈ a.bodies c, OpBy m op

theorem passJob_every {P : Op → Prop} {ms : List Method} (h : ∀ m ∈ ms, ∀ op, OpBy m op → P op) :
    (a.passJob ms).Every P fun _ => True := by
  induction ms with
  | nil => trivial
  | cons m ms ih =>
    exact ((visitJob_every m).imp (h m List.mem_cons_self)).bind fun _ _ =>
      (ih fun m hm => h m (List.mem_cons_of_mem _ hm)).bind fun _ _ => trivial

theorem stabilizeJob_every {P : Op → Prop} {ms : List Method}
    (h : ∀ m ∈ ms, ∀ op, OpBy m op → P op) (further : Nat) :
    (a.stabilizeJob ms further).Every P fun _ => True := by
  induction further with
  | zero => exact passJob_every h
  | succ further ih =>
    refine (passJob_every h).bind fun grown _ => ?_
    cases grown
    · trivial
    · exact ih

theorem componentJob_every (g : CallGraph) (c : Component) :
    (a.componentJob g c).Every (a.OpOf c) fun _ => True := by
  have hops : ∀ m ∈ a.bodies c, ∀ op, OpBy m op → a.OpOf c op := fun m hm op hop => ⟨m, hm, hop⟩
  unfold componentJob
  simp only
  split
  · exact (stabilizeJob_every hops _).bind fun _ _ => trivial
  · exact (passJob_every hops).bind fun _ _ => trivial

/-! ### Levels -/

def analyzeEach (a : Analysis) (g : CallGraph) :
    List Component → Progress → List ComponentReport × Progress
  | [], p => ([], p)
  | c :: cs, p =>
    let (conditions, p) := a.analyzeComponent g c p
    let (others, p) := analyzeEach a g cs p
    (⟨(a.bodies c).length, conditions⟩ :: others, p)

theorem analyzeAll_eq (g : CallGraph) (cs : List Component) (p : Progress) :
    a.analyzeAll g cs p =
      ((a.analyzeEach g cs p).1.flatMap ComponentReport.conditions,
        (a.analyzeEach g cs p).2) := by
  induction cs generalizing p with
  | nil => rfl
  | cons c cs ih => simp only [analyzeAll, ih, analyzeEach, List.flatMap_cons]

theorem runEach_componentJobs (g : CallGraph) (cs : List Component) (p : Progress) :
    a.runEach (cs.map (a.componentJob g)) p = a.analyzeEach g cs p := by
  induction cs generalizing p with
  | nil => rfl
  | cons c cs ih => simp only [List.map_cons, runEach, run_componentJob, ih, analyzeEach]

/-- A method is looked at by its own analysis, or as a callee. -/
theorem target_of_opBy (hp : a.program.WellFormed) (hm : m ∈ a.program.methods) {op : Op}
    (hop : OpBy m op) {k : MethodId} (hk : a.target? op = some k) :
    k = m.id ∨ (∃ name, op = .read name) ∧ (CallGraph.build a.program).Calls m.id k := by
  cases op with
  | read name =>
    obtain ⟨call, hcall, rfl⟩ := hop
    exact .inr ⟨⟨_, rfl⟩, (CallGraph.calls_build_iff hp hm).2 ⟨call, hcall, hk⟩⟩
  | clear j => exact .inl ((Option.some.inj hk).symm.trans hop)
  | fulfill rule site label other sources => exact .inl ((Option.some.inj hk).symm.trans hop)
  | update j inferred => exact .inl ((Option.some.inj hk).symm.trans hop)
  | record j matched => exact .inl ((Option.some.inj hk).symm.trans hop)

section Level

variable (hp : a.program.WellFormed) {cs level : List Component}
  (hcs : (CallGraph.build a.program).Condensed cs)
  (hlevel : level ∈ (CallGraph.build a.program).levels cs)

include hp hcs hlevel

/-- What different components of one level do is apart: neither calls a method of the other. -/
theorem opOf_apart {c c' : Component} (hc : c ∈ level) (hc' : c' ∈ level) (hne : c ≠ c')
    {op op' : Op} (hop : a.OpOf c op) (hop' : a.OpOf c' op') : a.Apart op op' := by
  have hfirst := hcs.calleesFirst (CallGraph.closed_build hp)
  have hdisjoint : ∀ c ∈ cs, ∀ c' ∈ cs, c ≠ c' → List.Disjoint c c' :=
    fun c hc c' hc' hne k hk hk' => hne (hcs.eq_of_mem hc hc' hk hk')
  obtain ⟨m, hm, hop⟩ := hop
  obtain ⟨m', hm', hop'⟩ := hop'
  obtain ⟨hm, hid, -⟩ := (mem_bodies hp).1 hm
  obtain ⟨hm', hid', -⟩ := (mem_bodies hp).1 hm'
  have hcalls {c c' : Component} (hc : c ∈ level) (hc' : c' ∈ level) (hne : c ≠ c')
      {k k' : MethodId} (hk : k ∈ c) (hk' : k' ∈ c') :
      ¬ (CallGraph.build a.program).Calls k k' :=
    CallGraph.not_calls_of_mem_level hlevel hcs.nodup hfirst hdisjoint hc hc' hne hk hk'
  by_cases hreads : ∃ name name', op = .read name ∧ op' = .read name'
  · exact .inl hreads
  · refine .inr fun k hk hk' => ?_
    rcases target_of_opBy hp hm hop hk with rfl | ⟨⟨name, hread⟩, hcall⟩ <;>
      rcases target_of_opBy hp hm' hop' hk' with heq | ⟨⟨name', hread'⟩, hcall'⟩
    · exact hdisjoint c (CallGraph.mem_of_mem_level hlevel hc) c'
        (CallGraph.mem_of_mem_level hlevel hc') hne hid (heq ▸ hid')
    · exact hcalls hc' hc hne.symm hid' hid hcall'
    · exact hcalls hc hc' hne hid hid' (heq ▸ hcall)
    · exact hreads ⟨name, name', hread, hread'⟩

/-- Components of one level do not interfere, in whatever order the components of the call graph are
found, callees first: whatever the order in which their operations take place, once all are done the
summaries, halves, outcomes and reports are what the components come to one after another, in any
order. -/
theorem follow_level {schedule : List Component} (hschedule : ∀ c ∈ schedule, c ∈ level)
    {p : Progress} {reports : Component → ComponentReport}
    (hdone : ∀ c ∈ level, (a.follow schedule
      (a.componentJob (CallGraph.build a.program), p)).1 c = .done (reports c))
    {order : List Component} (horder : order.Perm level) :
    let after := (a.follow schedule (a.componentJob (CallGraph.build a.program), p)).2
    a.analyzeEach (CallGraph.build a.program) order p = (order.map reports, after) ∧
      a.analyzeAll (CallGraph.build a.program) order p =
        (order.flatMap fun c => (reports c).conditions, after) := by
  have hnodup : order.Nodup := horder.nodup_iff.2 (CallGraph.nodup_level hlevel hcs.nodup)
  have hindependent : a.Independent order a.OpOf (a.componentJob (CallGraph.build a.program)) :=
    ⟨fun c hc c' hc' hne _ _ => opOf_apart hp hcs hlevel (horder.mem_iff.1 hc)
      (horder.mem_iff.1 hc') hne, fun c _ => componentJob_every _ c⟩
  have heach : a.analyzeEach (CallGraph.build a.program) order p = (order.map reports, _) :=
    calc a.analyzeEach (CallGraph.build a.program) order p
        = a.runEach (order.map (a.componentJob (CallGraph.build a.program))) p :=
          (runEach_componentJobs _ _ _).symm
      _ = a.runEach (order.map (a.follow schedule (a.componentJob _, p)).1)
            (a.follow schedule (a.componentJob _, p)).2 :=
          (runEach_follow hnodup hindependent
            (fun c hc => horder.mem_iff.2 (hschedule c hc)) p).symm
      _ = (order.map reports, (a.follow schedule (a.componentJob _, p)).2) :=
          runEach_done (fun c hc => hdone c (horder.mem_iff.1 hc)) _
  refine ⟨heach, ?_⟩
  rw [analyzeAll_eq, heach, List.flatMap_map]

end Level

/-- Two methods on one level: `once` reads a source and shows it, `again` also calls itself. -/
def onceAndAgain : Analysis where
  program := ⟨[
    ⟨⟨0⟩, "read", [], none, some ((∅ : Model).addGeneration .result (.ofKind ⟨0⟩) ∅)⟩,
    ⟨⟨1⟩, "show", ["x"], none, some ((∅ : Model).addSink (.argument 0) (.ofKind ⟨1⟩) ∅)⟩,
    ⟨⟨2⟩, "once", [], some
      (.run ⟨0, none⟩ (.call "read" [] (some "y"))
        (.run ⟨1, none⟩ (.call "show" ["y"] none) .done)), none⟩,
    ⟨⟨3⟩, "again", ["x"], some
      (.run ⟨0, none⟩ (.call "read" [] (some "y"))
        (.run ⟨1, none⟩ (.call "again" ["y"] none)
          (.run ⟨2, none⟩ (.call "show" ["x"] none) .done))), none⟩]⟩
  rules := (∅ : RuleSet).push
    ⟨"shown", 1, "", .direct (OrdSet.ofList [⟨0⟩]) (OrdSet.ofList [⟨1⟩]), none, none⟩
  kinds := ⟨[.named "Source", .named "Sink"]⟩
  heuristics := {}

theorem onceAndAgain_wellFormed : onceAndAgain.program.WellFormed where
  ids i m h := by
    match i with
    | 0 | 1 | 2 | 3 =>
      cases h
      rfl
    | i + 4 => cases h
  names := by decide

def takingTurns : List Component := (List.replicate 12 [[⟨3⟩], [⟨2⟩]]).flatten

theorem follow_level_takingTurns :
    let g := CallGraph.build onceAndAgain.program
    let after := onceAndAgain.follow takingTurns (onceAndAgain.componentJob g, onceAndAgain.start)
    (∀ c ∈ [[⟨2⟩], [⟨3⟩]], (after.1 c).result? = some ⟨1, []⟩) ∧ after.2.matched.size = 2 ∧
      onceAndAgain.analyzeEach g [[⟨3⟩], [⟨2⟩]] onceAndAgain.start =
        ([⟨1, []⟩, ⟨1, []⟩], after.2) := by
  have hlevel : [[⟨2⟩], [⟨3⟩]] ∈ (CallGraph.build onceAndAgain.program).levels
      (CallGraph.build onceAndAgain.program).components := by
    decide +kernel
  have hcs := CallGraph.condensed_components (CallGraph.closed_build onceAndAgain_wellFormed)
  have hschedule : ∀ c ∈ takingTurns, c ∈ [[⟨2⟩], [⟨3⟩]] := by decide
  have hdone : ∀ c ∈ [[⟨2⟩], [⟨3⟩]], ((onceAndAgain.follow takingTurns
      (onceAndAgain.componentJob (CallGraph.build onceAndAgain.program),
        onceAndAgain.start)).1 c).result? = some ⟨1, []⟩ := by
    decide +kernel
  have hswap : List.Perm [[⟨3⟩], [⟨2⟩]] ([[⟨2⟩], [⟨3⟩]] : List Component) := .swap _ _ _
  exact ⟨hdone, by decide +kernel, (follow_level onceAndAgain_wellFormed hcs hlevel
    hschedule (fun c hc => Job.result?_eq_some_iff.1 (hdone c hc)) hswap).1⟩

end Analysis

end TaintFlow
