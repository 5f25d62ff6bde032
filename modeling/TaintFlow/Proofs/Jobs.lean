import TaintFlow.Proofs.Trail
import TaintFlow.Proofs.StableResult

/-!
The analysis of a component in steps. What analyses share is touched only in single operations
(`Op`): reading the summary of a callee, dropping the waiting halves of a method, meeting a half,
joining a model into a summary, and recording what a method came to. A `Job` is what an analysis has
yet to do: nothing more, or an operation and then, depending on its answer, another job. Run with
nothing in between, the job of a component is the analysis of the component (`run_componentJob`).
-/

namespace TaintFlow

/-- An operation on what analyses share. No other operation takes place during it. -/
inductive Op where
  | read (callee : String)
  | clear (method : MethodId)
  | fulfill (rule : Int) (site : CallSite) (label other : String) (sources : FrameSet)
  | update (method : MethodId) (inferred : Model)
  | record (method : MethodId) (matched : Matched)

abbrev Op.Answer : Op → Type
  | read _ => Callee
  | clear _ => Unit
  | fulfill .. => Option (FrameSet × FrameSet)
  | update .. => Bool
  | record .. => Unit

inductive Job (α : Type) where
  | done (result : α)
  | step (op : Op) (next : op.Answer → Job α)

namespace Job

variable {α β : Type}

def bind : Job α → (α → Job β) → Job β
  | done result, f => f result
  | step op next, f => step op fun answer => (next answer).bind f

instance : Monad Job where
  pure := done
  bind := bind

def result? : Job α → Option α
  | done result => some result
  | step _ _ => none

theorem result?_eq_some_iff {t : Job α} {result : α} :
    t.result? = some result ↔ t = done result := by
  cases t <;> simp [result?]

def Every (P : Op → Prop) (Q : α → Prop) : Job α → Prop
  | done result => Q result
  | step op next => P op ∧ ∀ answer, (next answer).Every P Q

variable {P : Op → Prop} {Q : α → Prop} {R : β → Prop}

theorem Every.bind {t : Job α} {f : α → Job β} (ht : t.Every P Q)
    (hf : ∀ x, Q x → (f x).Every P R) : (t >>= f).Every P R := by
  induction t with
  | done result => exact hf result ht
  | step op next ih => exact ⟨ht.1, fun answer => ih answer (ht.2 answer)⟩

theorem Every.imp {P' : Op → Prop} {t : Job α} (ht : t.Every P Q) (hP : ∀ op, P op → P' op) :
    t.Every P' Q := by
  induction t with
  | done result => exact ht
  | step op next ih => exact ⟨hP op ht.1, fun answer => ih answer (ht.2 answer)⟩

end Job

namespace Analysis

open Walk (Gathered)

variable (a : Analysis)

def perform : (op : Op) → Progress → op.Answer × Progress
  | .read callee, p => (a.callee p callee, p)
  | .clear m, p => ((), { p with stash := p.stash.clear m })
  | .fulfill rule site label other sources, p =>
    let (met, stash) := p.stash.fulfill rule site label other sources
    (met, { p with stash })
  | .update m inferred, p => p.grow m inferred
  | .record m matched, p => ((), { p with matched := p.matched.insert m matched })

/-- All of a job, with nothing in between. -/
def runJob {α : Type} : Job α → Progress → α × Progress
  | .done result, p => (result, p)
  | .step op next, p => runJob (next (a.perform op p).1) (a.perform op p).2

section

variable {α β : Type} (p : Progress)

@[simp] theorem runJob_pure (result : α) : a.runJob (pure result) p = (result, p) := rfl

@[simp] theorem runJob_step (op : Op) (next : op.Answer → Job α) :
    a.runJob (.step op next) p = a.runJob (next (a.perform op p).1) (a.perform op p).2 := rfl

@[simp] theorem runJob_bind (t : Job α) (f : α → Job β) :
    a.runJob (t >>= f) p = a.runJob (f (a.runJob t p).1) (a.runJob t p).2 := by
  induction t generalizing p with
  | done result => rfl
  | step op next ih => exact ih (a.perform op p).1 (a.perform op p).2

end

/-! ### The jobs -/

def walkKnowing (m : Method) (known : Callee) : Walk := ⟨m, a.heuristics, fun _ => known⟩

/-- The walk of a method up to what is known about callees. -/
def blindWalk (m : Method) : Walk := a.walkKnowing m .obscure

/-- An instruction. The summary of a callee is read when it is called. -/
def applyJob (m : Method) (position : Nat) (i : Instruction) (s : State) :
    Job (State × List Observation) :=
  match i with
  | .call callee args result => .step (.read callee) fun known =>
    return (a.walkKnowing m known).apply position (.call callee args result) s
  | local_ => return (a.blindWalk m).apply position local_ s

def iterateJob (pass : State → Gathered → Job (Option State × Gathered)) :
    Nat → State → Gathered → Job (State × Gathered)
  | 0, head, g => return (head, g)
  | passes + 1, head, g => do
    let depth := a.heuristics.maxFieldDepth
    match ← pass head g with
    | (none, g) => return (head, g)
    | (some stop, g) =>
      if stop.le head depth then return (head.join stop depth, g)
      else iterateJob pass passes (head.join stop depth) g

def walkJob (m : Method) : Body → State → Gathered → Job (Option State × Gathered)
  | .done, s, g => return (some s, g)
  | .run place i rest, s, g => do
    let (s, observed) ← a.applyJob m place.position i s
    walkJob m rest s { g with observations := g.observations.addAll observed }
  | .leave _ value _, s, g =>
    return (none, (a.blindWalk m).leaveIn s ((a.blindWalk m).returnValue value s g))
  | .branch _ taken skipped rest, s, g => do
    let (taken, g) ← walkJob m taken s g
    let (skipped, g) ← walkJob m skipped s g
    match (a.blindWalk m).meet taken skipped with
    | some s => walkJob m rest s g
    | none => return (none, g)
  | .loop _ body rest, s, g => do
    let (s, g) ← a.iterateJob (walkJob m body) a.heuristics.maxLoopIterations s g
    walkJob m rest s g

def analysisJob (m : Method) : Job MethodAnalysis :=
  match m.body with
  | none => return ⟨∅, []⟩
  | some body => do
    let (stop, g) ← a.walkJob m body (a.blindWalk m).entry ∅
    let g := stop.elim g ((a.blindWalk m).leaveIn · g)
    return ⟨MethodAnalysis.infer (a.blindWalk m) g, g.observations.values⟩

def inTurnJob {α β : Type} (job : α → Job (List β)) : List α → Job (List β)
  | [] => return []
  | x :: xs => do
    let first ← job x
    let others ← inTurnJob job xs
    return first ++ others

def meetHalfJob (site : CallSite) (h : HalfHit) : Job (List Hit) :=
  .step (.fulfill h.rule.code site h.label h.other h.sources) fun
    | none => return []
    | some (own, other) =>
      return [⟨h.rule, (own.kinds ++ other.kinds).map fun (kind, _, info) => (kind, info)⟩]

def hitsJob (o : Observation) : Job (List Hit) :=
  match o.sink.kind? with
  | none => return []
  | some sink =>
    match a.kinds.get? sink with
    | some (.triggered half code) => return a.matcher.triggeredHits o half code
    | some (.half half) => inTurnJob (meetHalfJob o.site) (a.matcher.halfHits o sink half)
    | _ => return a.matcher.directHits o sink

def findingsJob (m : Method) (o : Observation) : Job (List Finding) := do
  let hits ← a.hitsJob o
  return hits.map (a.matcher.finding m o)

def checkJob (m : Method) (os : List Observation) : Job Matched :=
  .step (.clear m.id) fun _ => do
    let findings ← inTurnJob (a.findingsJob m) os
    return { findings, triggered := os.flatMap (a.matcher.triggeredSinks (a.matcher.metLabels os)) }

def visitJob (m : Method) : Job Bool := do
  let r ← a.analysisJob m
  let matched ← a.checkJob m r.observations
  .step (.update m.id (withTriggered r.model matched)) fun grown =>
    .step (.record m.id matched) fun _ => return grown

def passJob : List Method → Job Bool
  | [] => return false
  | m :: ms => do
    let grown ← a.visitJob m
    let later ← passJob ms
    return grown || later

def stabilizeJob (ms : List Method) : Nat → Job Bool
  | 0 => a.passJob ms
  | further + 1 => do
    if ← a.passJob ms then stabilizeJob ms further
    else return false

structure ComponentReport where
  /-- The number of methods analyzed. -/
  analyzed : Nat
  conditions : List Condition
  deriving DecidableEq

def componentJob (g : CallGraph) (c : Component) : Job ComponentReport := do
  let ms := a.bodies c
  if g.isRecursive c then
    let limited ← a.stabilizeJob ms (a.heuristics.maxIterations - 1)
    return ⟨ms.length, if limited then [.iterationLimit (ms.map Method.name)] else []⟩
  else
    let _ ← a.passJob ms
    return ⟨ms.length, []⟩

/-! ### Jobs that run alone -/

variable {a} {p : Progress}

theorem run_applyJob (m : Method) (position : Nat) (i : Instruction) (s : State) :
    a.runJob (a.applyJob m position i s) p =
      ((⟨m, a.heuristics, a.callee p⟩ : Walk).apply position i s, p) := by
  cases i <;> rfl

theorem run_iterateJob {w : Walk} (hw : w.heuristics = a.heuristics)
    {pass : State → Gathered → Option State × Gathered}
    {job : State → Gathered → Job (Option State × Gathered)}
    (h : ∀ s g, a.runJob (job s g) p = (pass s g, p)) (passes : Nat) (head : State)
    (g : Gathered) :
    a.runJob (a.iterateJob job passes head g) p = (w.iterate pass passes head g, p) := by
  induction passes generalizing head g with
  | zero => rfl
  | succ passes ih =>
    simp only [iterateJob, runJob_bind, h, Walk.iterate, hw]
    rcases pass head g with ⟨_ | stop, g'⟩
    · rfl
    · simp only
      split
      · rfl
      · exact ih _ _

theorem run_walkJob (m : Method) (body : Body) (s : State) (g : Gathered) :
    a.runJob (a.walkJob m body s g) p =
      ((⟨m, a.heuristics, a.callee p⟩ : Walk).walk body s g, p) := by
  induction body generalizing s g with
  | done => rfl
  | run place i rest ih =>
    simp only [walkJob, runJob_bind, run_applyJob, Walk.walk]
    exact ih _ _
  | leave place value rest _ => rfl
  | branch place taken skipped rest ihTaken ihSkipped ihRest =>
    simp only [walkJob, runJob_bind, ihTaken, ihSkipped, Walk.walk]
    -- where arms meet does not depend on what is known about callees
    have hblind : (a.blindWalk m).meet = (⟨m, a.heuristics, a.callee p⟩ : Walk).meet := rfl
    rw [hblind]
    rcases (⟨m, a.heuristics, a.callee p⟩ : Walk).meet _ _ with _ | s
    · rfl
    · exact ihRest _ _
  | loop place body rest ihBody ihRest =>
    simp only [walkJob, runJob_bind, Walk.walk,
      run_iterateJob (w := ⟨m, a.heuristics, a.callee p⟩) rfl ihBody]
    exact ihRest _ _

theorem run_analysisJob (m : Method) :
    a.runJob (a.analysisJob m) p = (MethodAnalysis.run ⟨m, a.heuristics, a.callee p⟩, p) := by
  have hentry : (a.blindWalk m).entry = (⟨m, a.heuristics, a.callee p⟩ : Walk).entry := rfl
  unfold analysisJob MethodAnalysis.run Walk.gather
  simp only
  cases m.body with
  | none => rfl
  | some body =>
    simp only [runJob_bind, run_walkJob, hentry]
    rcases (⟨m, a.heuristics, a.callee p⟩ : Walk).walk body _ ∅ with ⟨_ | s, g⟩ <;> rfl

theorem run_inTurnJob {α β : Type} {job : α → Job (List β)}
    {step : α → Stash → List β × Stash}
    (h : ∀ x (p : Progress),
      a.runJob (job x) p = ((step x p.stash).1, { p with stash := (step x p.stash).2 }))
    (xs : List α) (p : Progress) :
    a.runJob (inTurnJob job xs) p =
      ((Matcher.inTurn step xs p.stash).1,
        { p with stash := (Matcher.inTurn step xs p.stash).2 }) := by
  induction xs generalizing p with
  | nil => rfl
  | cons x xs ih =>
    simp only [inTurnJob, runJob_bind, h, ih, runJob_pure]
    rfl

theorem run_meetHalfJob (site : CallSite) (h : HalfHit) (p : Progress) :
    a.runJob (meetHalfJob site h) p =
      ((Matcher.meetHalf site h p.stash).1,
        { p with stash := (Matcher.meetHalf site h p.stash).2 }) := by
  simp only [meetHalfJob, Matcher.meetHalf, runJob_step, perform]
  rcases p.stash.fulfill h.rule.code site h.label h.other h.sources with
    ⟨_ | ⟨own, other⟩, stash⟩ <;> rfl

theorem run_hitsJob (o : Observation) (p : Progress) :
    a.runJob (a.hitsJob o) p =
      ((a.matcher.hits o p.stash).1, { p with stash := (a.matcher.hits o p.stash).2 }) := by
  have hkinds : a.matcher.kinds = a.kinds := rfl
  unfold hitsJob Matcher.hits
  cases o.sink.kind? with
  | none => rfl
  | some sink =>
    simp only [hkinds]
    rcases a.kinds.get? sink with _ | kind
    · rfl
    · cases kind with
      | half half => exact run_inTurnJob (run_meetHalfJob o.site) _ p
      | _ => rfl

theorem run_findingsJob (m : Method) (o : Observation) (p : Progress) :
    a.runJob (a.findingsJob m o) p =
      ((a.matcher.findings m o p.stash).1,
        { p with stash := (a.matcher.findings m o p.stash).2 }) := by
  simp only [findingsJob, runJob_bind, run_hitsJob, runJob_pure]
  rfl

theorem run_checkJob (m : Method) (os : List Observation) (p : Progress) :
    a.runJob (a.checkJob m os) p =
      ((a.matcher.check m os p.stash).1,
        { p with stash := (a.matcher.check m os p.stash).2 }) := by
  simp only [checkJob, runJob_step, runJob_bind, run_inTurnJob (run_findingsJob m), runJob_pure]
  rfl

theorem run_visitJob (m : Method) (p : Progress) : a.runJob (a.visitJob m) p = a.visit m p := by
  simp only [visitJob, runJob_bind, run_analysisJob, run_checkJob, runJob_step, perform,
    runJob_pure, visit, Progress.grow]
  split <;> rfl

theorem run_passJob (ms : List Method) (p : Progress) : a.runJob (a.passJob ms) p = a.pass ms p := by
  induction ms generalizing p with
  | nil => rfl
  | cons m ms ih =>
    simp only [passJob, runJob_bind, run_visitJob, ih, runJob_pure]
    rfl

theorem run_stabilizeJob (ms : List Method) (further : Nat) (p : Progress) :
    a.runJob (a.stabilizeJob ms further) p = a.stabilize ms further p := by
  induction further generalizing p with
  | zero => exact run_passJob ms p
  | succ further ih =>
    rw [stabilizeJob, runJob_bind, run_passJob, stabilize]
    rcases a.pass ms p with ⟨_ | _, p'⟩
    · rfl
    · exact ih p'

/-- With nothing in between, the job of a component is the analysis of the component. -/
theorem run_componentJob (g : CallGraph) (c : Component) (p : Progress) :
    a.runJob (a.componentJob g c) p =
      (⟨(a.bodies c).length, (a.analyzeComponent g c p).1⟩, (a.analyzeComponent g c p).2) := by
  unfold componentJob analyzeComponent
  simp only
  split
  · rw [runJob_bind, run_stabilizeJob]
    rcases a.stabilize (a.bodies c) (a.heuristics.maxIterations - 1) p with ⟨_ | _, p'⟩ <;> rfl
  · rw [runJob_bind, run_passJob]
    rfl

end Analysis

end TaintFlow
