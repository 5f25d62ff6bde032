import Mathlib.Data.List.Chain
import TaintFlow.Proofs.Declared
import TaintFlow.Proofs.Upheld

/-!
Traces as chains of calls. Every step of a recorded trace is a call of the program, and the callee
of a step is the method of the next one. A trace is put together from its end: a call is put in
front of it while it is shorter than the limit, so only a trace that has reached the limit may start
elsewhere than in the method whose frame carries it (`Program.Records`). Joins keep one of two
traces, and all else leaves them as they are, so that one contract says this of all states and
summaries (`Analysis.traced`), and every analysis of a loaded program upholds it
(`Analysis.upholds_traced`).
-/

namespace TaintFlow

/-! ### Chains of calls -/

namespace Program

def HasStep (p : Program) (s : Step) : Prop :=
  ∃ m ∈ p.methods, m.name = s.method ∧ (s.position, s.callee) ∈ m.calls

/-- Calls of the program, each in the method that the one before it calls. -/
structure Chain (p : Program) (t : Trace) : Prop where
  steps : ∀ s ∈ t, p.HasStep s
  linked : t.IsChain fun s s' => s.callee = s'.method

/-- A trace that a method records: a chain of calls up to a limit, which starts in the method
unless it has reached the limit. -/
structure Records (p : Program) (limit : Nat) (method : String) (t : Trace) : Prop where
  length : t.length ≤ limit
  chain : p.Chain t
  head : t.length < limit → ∀ s ∈ t.head?, s.method = method

variable {p : Program} {limit : Nat} {method : String} {t : Trace}

theorem chain_nil : p.Chain [] := ⟨nofun, .nil⟩

theorem records_nil : p.Records limit method [] := ⟨Nat.zero_le _, chain_nil, nofun⟩

/-- A call put in front of what the callee records. -/
theorem Records.addStep {m : Method} {call : Nat × String} (hm : m ∈ p.methods)
    (hcall : call ∈ m.calls) (port : String) {info : FrameInfo}
    (h : p.Records limit call.2 info.trace) :
    p.Records limit m.name (info.addStep ⟨m.name, call.1, call.2, port⟩ limit).trace := by
  unfold FrameInfo.addStep
  split
  · next hlt =>
    -- below the limit the trace starts in the callee, where the call leads to
    refine ⟨hlt, ⟨List.forall_mem_cons.2 ⟨⟨m, hm, rfl, hcall⟩, h.chain.steps⟩, ?_⟩, ?_⟩
    · exact List.isChain_cons.2 ⟨fun s hs => (h.head hlt s hs).symm, h.chain.linked⟩
    · intro _ s hs
      cases hs
      rfl
  · next hge => exact ⟨h.length, h.chain, fun hlt => absurd hlt hge⟩

end Program

/-! ### The contract -/

namespace Analysis

def traced (a : Analysis) (m : Method) : Contract where
  name _ := True
  origin _ := True
  frame _ info := a.program.Records a.heuristics.maxTraceLength m.name info.trace
  port _ := True
  source _ info := a.program.Records a.heuristics.maxTraceLength m.name info.trace
  sink _ info := a.program.Records a.heuristics.maxTraceLength m.name info.trace
  propagation _ := True
  effect _ := True

variable {a : Analysis} {m : Method}

theorem joins_records {limit : Nat} {method : String} :
    FrameSet.Joins fun _ info => a.program.Records limit method info.trace := by
  intro f i j hi hj
  rcases FrameInfo.trace_join i j with h | h
  · exact h ▸ hi
  · exact h ▸ hj

theorem traced_suits (hdeclared : a.program.DeclaredIn a.kinds.size) (hm : m ∈ a.program.methods) :
    (a.traced m).Suits m a.heuristics a.kinds where
  closed := {
    frames := joins_records
    sources := joins_records
    sinks := joins_records
    below := fun _ hf => hf
    mark := fun _ hf => hf }
  infers := {
    ports := fun _ _ => trivial
    sources := fun _ hf => hf
    sinkPorts := fun _ _ => trivial
    sinks := fun hsink _ _ => hsink
    propagations := fun _ _ _ _ _ => trivial }
  declared model hmodel := by
    have hframe (f : Frame) (info : FrameInfo) (hf : f.DeclaredIn a.kinds.size info) :
        a.program.Records a.heuristics.maxTraceLength m.name info.trace :=
      hf.2 ▸ Program.records_nil
    exact (hdeclared m hm model hmodel).mono (fun _ h => h) hframe hframe (fun _ _ => trivial)
      fun _ _ => trivial
  names _ _ _ := trivial
  seeds hf := hf
  parameters _ _ := ⟨trivial, Program.records_nil⟩
  instructions _ _ i _ := ⟨trivial, Instruction.fits_of_path (fun _ _ _ => trivial) i.2⟩

theorem traced_admits (hm : m ∈ a.program.methods) {call : Nat × String} (hcall : call ∈ m.calls)
    {k : Method} (hname : k.name = call.2) :
    (a.traced m).Admits (a.traced k) a.heuristics
      fun port => ⟨m.name, call.1, call.2, port.render⟩ where
  names _ _ _ := trivial
  generations {port f info} _ hf := by
    have hf : a.program.Records a.heuristics.maxTraceLength k.name info.trace := hf
    exact Program.Records.addStep hm hcall _ (hname ▸ hf)
  sinks {port f info} _ hf := by
    have hf : a.program.Records a.heuristics.maxTraceLength k.name info.trace := hf
    exact Program.Records.addStep hm hcall _ (hname ▸ hf)
  propagations _ := ⟨fun _ _ => trivial, fun _ _ => trivial⟩
  copies {p f info e} _ hf he := by
    obtain ⟨-, -, -, hinfo⟩ := Propagation.of_copy he
    exact hinfo ▸ hf

theorem upholds_traced (hp : a.program.WellFormed) (hdeclared : a.program.DeclaredIn a.kinds.size) :
    a.Upholds (contractsOf a.program a.traced) where
  suits m hm := by
    rw [contractsOf_id hp a.traced hm]
    exact traced_suits hdeclared hm
  admits m hm call hcall k hk hname := by
    rw [contractsOf_id hp a.traced hm, contractsOf_id hp a.traced hk]
    exact traced_admits hm hcall hname

end Analysis

/-! ### Models -/

def Model.traces (model : Model) : List Trace :=
  (OrdMap.values model.generations ++ OrdMap.values model.sinks).flatMap fun fs =>
    (OrdMap.values fs).map FrameInfo.trace

theorem Model.Meets.records {a : Analysis} {m : Method} {model : Model}
    (h : model.Meets (a.traced m)) :
    ∀ t ∈ model.traces, a.program.Records a.heuristics.maxTraceLength m.name t := by
  intro t ht
  obtain ⟨fs, hfs, ht⟩ := List.mem_flatMap.1 ht
  obtain ⟨info, hinfo, rfl⟩ := List.mem_map.1 ht
  obtain ⟨f, hf⟩ := OrdMap.mem_values.1 hinfo
  rcases List.mem_append.1 hfs with hfs | hfs
  · obtain ⟨port, hport⟩ := OrdMap.mem_values.1 hfs
    exact (h.generations port fs hport).2 f info hf
  · obtain ⟨port, hport⟩ := OrdMap.mem_values.1 hfs
    exact (h.sinks port fs hport).2 f info hf

end TaintFlow
