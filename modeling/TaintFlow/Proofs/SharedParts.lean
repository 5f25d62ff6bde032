import TaintFlow.Proofs.CallOrder
import TaintFlow.Proofs.RelocatedAnalysis

/-!
Programs that share a part. The part is a set of methods, given by their names, that both programs
have with the same bodies and declared models, and whose calls stay in it. Ids say where a method is
listed, and may differ. In both programs the same names of the part stand for methods, and the
methods of the part call and reach each other alike: `Shares.reaches_iff`.
-/

namespace TaintFlow

namespace Program

def part (names : String → Bool) (p : Program) : List Method :=
  (p.methods.filter (names ·.name)).map (·.withId ⟨0⟩)

/-- Programs that have the same methods with some names, which call no other method. -/
structure Shares (names : String → Bool) (p q : Program) : Prop where
  methods : (p.part names).Perm (q.part names)
  closed : ∀ m ∈ p.methods, names m.name = true → ∀ call ∈ m.calls,
    names call.2 = true ∨ p.lookup call.2 = none ∧ q.lookup call.2 = none

namespace Shares

variable {names : String → Bool} {p q : Program} {m k : Method} {i j : MethodId}

/-- Every method of the part is listed in the other program. -/
theorem exists_partner (h : p.Shares names q) (hm : m ∈ p.methods) (hname : names m.name = true) :
    ∃ j, m.withId j ∈ q.methods := by
  obtain ⟨m', hm', heq⟩ := List.mem_map.1
    (h.methods.subset (List.mem_map_of_mem (List.mem_filter.2 ⟨hm, hname⟩)))
  have hpartner : (m.withId ⟨0⟩).withId m'.id = m' := by rw [← heq]; rfl
  exact ⟨m'.id, hpartner ▸ (List.mem_filter.1 hm').1⟩

theorem symm (h : p.Shares names q) : q.Shares names p where
  methods := h.methods.symm
  closed m hm hname call hcall := by
    obtain ⟨m', hm', heq⟩ := List.mem_map.1
      (h.methods.symm.subset (List.mem_map_of_mem (List.mem_filter.2 ⟨hm, hname⟩)))
    have hcalls : m'.calls = m.calls :=
      congrArg (fun body => (body.map Block.calls).getD []) (congrArg Method.body heq)
    obtain ⟨hm', hname'⟩ := List.mem_filter.1 hm'
    exact (h.closed m' hm' hname' call (hcalls ▸ hcall)).imp_right And.symm

/-- A name of the part stands for the same method. -/
theorem lookup (h : p.Shares names q) (hq : q.WellFormed) {name : String}
    (hname : names name = true) (hm : p.lookup name = some m) :
    ∃ j, q.lookup name = some (m.withId j) := by
  obtain ⟨hmem, rfl⟩ := mem_of_lookup hm
  obtain ⟨j, hj⟩ := h.exists_partner hmem hname
  exact ⟨j, hq.lookup_name hj⟩

/-- What a method of the part calls has a method in both programs or in neither. -/
theorem lookup_none (h : p.Shares names q) (hp : p.WellFormed) (hm : m ∈ p.methods)
    (hname : names m.name = true) {call : Nat × String} (hcall : call ∈ m.calls)
    (hnone : p.lookup call.2 = none) : q.lookup call.2 = none := by
  rcases h.closed m hm hname call hcall with hinside | hoff
  · cases hlookup : q.lookup call.2 with
    | none => rfl
    | some k =>
      obtain ⟨j, hj⟩ := h.symm.lookup hp hinside hlookup
      rw [hnone] at hj
      cases hj
  · exact hoff.2

/-- The methods of the part call each other alike. -/
theorem calls (h : p.Shares names q) (hp : p.WellFormed) (hq : q.WellFormed) (hm : m ∈ p.methods)
    (hname : names m.name = true) (hj : m.withId j ∈ q.methods)
    (hcalls : (CallGraph.build p).Calls m.id i) :
    ∃ k ∈ p.methods, k.id = i ∧ names k.name = true ∧
      ∃ l, k.withId l ∈ q.methods ∧ (CallGraph.build q).Calls j l := by
  obtain ⟨call, hcall, hcallee⟩ := (CallGraph.calls_build_iff hp hm).1 hcalls
  obtain ⟨k, hk, rfl⟩ := Option.map_eq_some_iff.1 hcallee
  have hinside : names call.2 = true :=
    (h.closed m hm hname call hcall).resolve_right fun hnone => by
      rw [hnone.1] at hk
      cases hk
  obtain ⟨l, hl⟩ := h.lookup hq hinside hk
  refine ⟨k, (mem_of_lookup hk).1, rfl, (mem_of_lookup hk).2 ▸ hinside, l, (mem_of_lookup hl).1, ?_⟩
  exact CallGraph.calls_of_lookup hq hj hcall hl

theorem reaches (h : p.Shares names q) (hp : p.WellFormed) (hq : q.WellFormed)
    (hm : m ∈ p.methods) (hname : names m.name = true) (hj : m.withId j ∈ q.methods)
    (hreaches : (CallGraph.build p).Reaches m.id i) :
    ∃ k ∈ p.methods, k.id = i ∧ names k.name = true ∧
      ∃ l, k.withId l ∈ q.methods ∧ (CallGraph.build q).Reaches j l := by
  induction hreaches with
  | refl => exact ⟨m, hm, rfl, hname, j, hj, .refl⟩
  | tail _ hcalls ih =>
    obtain ⟨k, hk, rfl, hname, l, hl, hreaches⟩ := ih
    obtain ⟨k', hk', rfl, hname', l', hl', hcalls⟩ := h.calls hp hq hk hname hl hcalls
    exact ⟨k', hk', rfl, hname', l', hl', hreaches.tail hcalls⟩

/-- A method is listed once, so its place in the other program is the one that is reached. -/
theorem reaches_iff (h : p.Shares names q) (hp : p.WellFormed) (hq : q.WellFormed)
    (hm : m ∈ p.methods) (hname : names m.name = true) (hi : m.withId i ∈ q.methods)
    (hk : k ∈ p.methods) (hj : k.withId j ∈ q.methods) :
    (CallGraph.build q).Reaches i j ↔ (CallGraph.build p).Reaches m.id k.id := by
  constructor
  · intro hreaches
    obtain ⟨k', hk', rfl, -, l, hl, hreaches⟩ :=
      h.symm.reaches (m := m.withId i) (j := m.id) hq hp hi hname hm hreaches
    have hname : k'.name = (k.withId k'.id).name :=
      congrArg Method.name (hq.eq_of_id hk' hj rfl)
    rwa [← show l = k.id from congrArg Method.id (hp.eq_of_name hl hk hname)]
  · intro hreaches
    obtain ⟨k', hk', hid, -, l, hl, hreaches⟩ := h.reaches hp hq hm hname hi hreaches
    obtain rfl := hp.eq_of_id hk' hk hid
    rwa [← show l = j from congrArg Method.id (hq.eq_of_name hl hj rfl)]

end Shares

/-! ### Twins -/

def idOf (p : Program) (name : String) : MethodId := ((p.lookup name).map Method.id).getD ⟨0⟩

/-- A method under the id that its name stands for in a program. -/
def twin (q : Program) (m : Method) : Method := m.withId (q.idOf m.name)

section Twins

variable {names : String → Bool} {p q : Program} {m k : Method} {j : MethodId}

theorem twin_eq (hq : q.WellFormed) (hj : m.withId j ∈ q.methods) : q.twin m = m.withId j := by
  rw [twin, idOf, show q.lookup m.name = some (m.withId j) from hq.lookup_name hj]
  rfl

theorem twin_self (hq : q.WellFormed) (hm : m ∈ q.methods) : q.twin m = m :=
  twin_eq (m := m) (j := m.id) hq hm

namespace Shares

variable (h : p.Shares names q) (hp : p.WellFormed) (hq : q.WellFormed) (hm : m ∈ p.methods)
  (hname : names m.name = true)

include h hq hm hname

theorem twin_mem : q.twin m ∈ q.methods := by
  obtain ⟨j, hj⟩ := h.exists_partner hm hname
  rwa [twin_eq hq hj]

include hp

theorem twin_id_eq_iff (hk : k ∈ p.methods) (hname' : names k.name = true) :
    (q.twin k).id = (q.twin m).id ↔ k.id = m.id := by
  constructor
  · intro hid
    have htwin := hq.eq_of_id (h.twin_mem hq hk hname') (h.twin_mem hq hm hname) hid
    rw [hp.eq_of_name hk hm (congrArg Method.name htwin :)]
  · intro hid
    rw [hp.eq_of_id hk hm hid]

theorem reaches_twin_iff (hk : k ∈ p.methods) (hname' : names k.name = true) :
    (CallGraph.build q).Reaches (q.twin m).id (q.twin k).id ↔
      (CallGraph.build p).Reaches m.id k.id :=
  h.reaches_iff hp hq hm hname (h.twin_mem hq hm hname) hk (h.twin_mem hq hk hname')

theorem calls_twin (hk : k ∈ p.methods) (hcalls : (CallGraph.build p).Calls m.id k.id) :
    (CallGraph.build q).Calls (q.twin m).id (q.twin k).id := by
  obtain ⟨k', hk', hid, -, l, hl, hcalls⟩ :=
    h.calls hp hq hm hname (h.twin_mem hq hm hname) hcalls
  obtain rfl := hp.eq_of_id hk' hk hid
  rwa [twin_eq hq hl]

end Shares

/-- A part that is listed in the same order is listed by twins. -/
theorem filter_eq_map_twin (hq : q.WellFormed) (h : p.part names = q.part names) :
    q.methods.filter (names ·.name) = (p.methods.filter (names ·.name)).map q.twin := by
  have htwin : (p.part names).map q.twin = (p.methods.filter (names ·.name)).map q.twin := by
    rw [part, List.map_map]
    rfl
  rw [← htwin, h, part, List.map_map]
  have hself : ∀ m ∈ q.methods.filter (names ·.name), (q.twin ∘ (·.withId ⟨0⟩)) m = m :=
    fun m hm => twin_self hq (List.mem_filter.1 hm).1
  rw [List.map_congr_left hself, List.map_id']

end Twins

end Program

end TaintFlow
