import Mathlib.Order.Bounds.Defs
import TaintFlow.Proofs.EffectChains
import TaintFlow.Proofs.PrunedPrograms
import TaintFlow.Proofs.Unrolling

/-!
The numbers of statements. `Block.statements` lists the statements of a block in preorder, and
`number` gives every statement its place in that list (`Block.statements_number`). What looks a
statement up, lists the calls or builds the call graph has recursions of its own over the nested
blocks; all of them agree with the list, so that in a program as it is loaded a number stands for
one statement everywhere: `Program.numbers_load`.
-/

namespace TaintFlow

/-- What a statement does, without the blocks that it holds. -/
inductive Act where
  | run (instruction : Instruction)
  | leave (value : Option String)
  | branch
  | loop
  deriving DecidableEq

def Act.callee? : Act → Option String
  | run (.call callee _ _) => some callee
  | _ => none

theorem Act.callee?_eq_some_iff {act : Act} {callee : String} :
    act.callee? = some callee ↔ ∃ args result, act = run (.call callee args result) := by
  constructor
  · intro h
    unfold callee? at h
    split at h
    · next own args result =>
      cases h
      exact ⟨args, result, rfl⟩
    · cases h
  · rintro ⟨args, result, rfl⟩
    rfl

namespace Block

variable {Pos : Type}

/-- The statements in preorder: a branch, the arm that is taken, the other arm and what follows; a
loop, its body and what follows. -/
def statements : Block Pos → List (Place Pos × Act)
  | done => []
  | run place i rest => (place, .run i) :: rest.statements
  | leave place value rest => (place, .leave value) :: rest.statements
  | branch place taken skipped rest =>
    (place, .branch) :: (taken.statements ++ skipped.statements ++ rest.statements)
  | loop place body rest => (place, .loop) :: (body.statements ++ rest.statements)

def unnumbered : Block Pos → Block Unit
  | done => done
  | run place i rest => run ⟨(), place.line⟩ i rest.unnumbered
  | leave place value rest => leave ⟨(), place.line⟩ value rest.unnumbered
  | branch place taken skipped rest =>
    branch ⟨(), place.line⟩ taken.unnumbered skipped.unnumbered rest.unnumbered
  | loop place body rest => loop ⟨(), place.line⟩ body.unnumbered rest.unnumbered

def numbered (next : Nat) (ss : List (Place Pos × Act)) : List (Place Nat × Act) :=
  ss.mapIdx fun i s => (renumber s.1 (next + i), s.2)

theorem unnumbered_unit (b : Block Unit) : b.unnumbered = b := by
  induction b with
  | done => rfl
  | run place i rest ih => rw [unnumbered, ih]
  | leave place value rest ih => rw [unnumbered, ih]
  | branch place taken skipped rest ihTaken ihSkipped ihRest =>
    rw [unnumbered, ihTaken, ihSkipped, ihRest]
  | loop place body rest ihBody ihRest => rw [unnumbered, ihBody, ihRest]

/-- Numbers are all that numbering changes. -/
theorem unnumbered_number (b : Block Pos) (next : Nat) :
    (b.number next).1.unnumbered = b.unnumbered := by
  induction b generalizing next with
  | done => rfl
  | run place i rest ih => simp only [number, unnumbered, renumber, ih]
  | leave place value rest ih => simp only [number, unnumbered, renumber, ih]
  | branch place taken skipped rest ihTaken ihSkipped ihRest =>
    simp only [number, unnumbered, renumber, ihTaken, ihSkipped, ihRest]
  | loop place body rest ihBody ihRest => simp only [number, unnumbered, renumber, ihBody, ihRest]

theorem map_fst_statements (b : Block Pos) : b.statements.map Prod.fst = b.places := by
  induction b with
  | done => rfl
  | run place i rest ih => simp [statements, places, ih]
  | leave place value rest ih => simp [statements, places, ih]
  | branch place taken skipped rest ihTaken ihSkipped ihRest =>
    simp [statements, places, ihTaken, ihSkipped, ihRest]
  | loop place body rest ihBody ihRest => simp [statements, places, ihBody, ihRest]

theorem length_statements (b : Block Pos) : b.statements.length = b.places.length := by
  rw [← map_fst_statements, List.length_map]

theorem length_places (b : Block Pos) : b.places.length = b.size := by
  induction b with
  | done => rfl
  | run place i rest ih => rw [places, size, List.length_cons, ih, Nat.add_comm]
  | leave place value rest ih => rw [places, size, List.length_cons, ih, Nat.add_comm]
  | branch place taken skipped rest ihTaken ihSkipped ihRest =>
    simp only [places, size, List.length_cons, List.length_append, ihTaken, ihSkipped, ihRest]
    omega
  | loop place body rest ihBody ihRest =>
    simp only [places, size, List.length_cons, List.length_append, ihBody, ihRest]
    omega

/-! ### Numbering -/

section Numbered

variable {ss ss' : List (Place Pos × Act)} {s : Place Pos × Act} {next : Nat}

theorem numbered_cons :
    numbered next (s :: ss) = (renumber s.1 next, s.2) :: numbered (next + 1) ss := by
  simp only [numbered, List.mapIdx_cons, Nat.add_zero, Nat.add_assoc, Nat.add_comm 1]

theorem numbered_append :
    numbered next (ss ++ ss') = numbered next ss ++ numbered (next + ss.length) ss' := by
  simp only [numbered, List.mapIdx_append, Nat.add_assoc, Nat.add_comm ss.length]

theorem getElem?_numbered (next i : Nat) (ss : List (Place Pos × Act)) :
    (numbered next ss)[i]? = ss[i]?.map fun s => (renumber s.1 (next + i), s.2) :=
  List.getElem?_mapIdx

/-- Among statements with consecutive numbers a number is found at its place. -/
theorem find?_numbered (next i : Nat) (ss : List (Place Pos × Act)) :
    (numbered next ss).find? (fun s => s.1.position = next + i) = (numbered next ss)[i]? := by
  induction ss generalizing next i with
  | nil => rfl
  | cons s ss ih =>
    rw [numbered_cons]
    cases i with
    | zero => simp [renumber]
    | succ i =>
      rw [List.find?_cons_of_neg (by simp [renumber]), List.getElem?_cons_succ, ← ih,
        Nat.add_assoc next 1, Nat.add_comm 1]

end Numbered

/-- Every statement is numbered with its place in preorder. -/
theorem statements_number (b : Block Pos) (next : Nat) :
    (b.number next).1.statements = numbered next b.statements := by
  -- an inner block starts after as many numbers as there are statements before it (`number_snd`)
  induction b generalizing next with
  | done => rfl
  | run place i rest ih => simp only [number, statements, numbered_cons, ih]
  | leave place value rest ih => simp only [number, statements, numbered_cons, ih]
  | branch place taken skipped rest ihTaken ihSkipped ihRest =>
    simp only [number, statements, numbered_cons, numbered_append, ihTaken, ihSkipped, ihRest,
      number_snd, List.length_append, length_statements, Nat.add_assoc]
  | loop place body rest ihBody ihRest =>
    simp only [number, statements, numbered_cons, numbered_append, ihBody, ihRest, number_snd,
      length_statements]

/-! ### Readers -/

/-- A number is looked up as if the statements were in one list. -/
theorem find?_eq (position : Nat) (b : Body) :
    b.find? position =
      (b.statements.find? fun s => s.1.position = position).map Prod.fst := by
  have hcons (s : Place Nat × Act) (ss : List (Place Nat × Act)) :
      ((s :: ss).find? fun s => s.1.position = position).map Prod.fst =
        if s.1.position = position then some s.1
        else (ss.find? fun s => s.1.position = position).map Prod.fst := by
    by_cases h : s.1.position = position <;> simp [h]
  have happend (ss ss' : List (Place Nat × Act)) :
      ((ss ++ ss').find? fun s => s.1.position = position).map Prod.fst =
        ((ss.find? fun s => s.1.position = position).map Prod.fst).or
          ((ss'.find? fun s => s.1.position = position).map Prod.fst) := by
    rw [List.find?_append, Option.map_or]
  induction b with
  | done => rfl
  | run place i rest ih => rw [find?, statements, hcons, ih]
  | leave place value rest ih => rw [find?, statements, hcons, ih]
  | branch place taken skipped rest ihTaken ihSkipped ihRest =>
    rw [find?, statements, hcons, happend, happend, ihTaken, ihSkipped, ihRest]
  | loop place body rest ihBody ihRest => rw [find?, statements, hcons, happend, ihBody, ihRest]

theorem find?_number (b : Block Pos) (position : Nat) :
    (b.number 0).1.find? position =
      b.statements[position]?.map fun s => renumber s.1 position := by
  have hfind := find?_numbered 0 position b.statements
  rw [Nat.zero_add] at hfind
  rw [find?_eq, statements_number, hfind, getElem?_numbered, Option.map_map, Nat.zero_add]
  rfl

def callOf (s : Place Nat × Act) : Option (Nat × String) := s.2.callee?.map (s.1.position, ·)

/-- Calls are listed in the order of the statements. -/
theorem calls_eq (b : Body) : b.calls = b.statements.filterMap callOf := by
  induction b with
  | done => rfl
  | run place i rest ih =>
    cases i <;> simp [calls, statements, callOf, Act.callee?, List.filterMap_cons, ih]
  | leave place value rest ih =>
    simp [calls, statements, callOf, Act.callee?, List.filterMap_cons, ih]
  | branch place taken skipped rest ihTaken ihSkipped ihRest =>
    simp [calls, statements, callOf, Act.callee?, List.filterMap_cons, ihTaken, ihSkipped, ihRest]
  | loop place body rest ihBody ihRest =>
    simp [calls, statements, callOf, Act.callee?, List.filterMap_cons, ihBody, ihRest]

theorem mem_calls_number {b : Block Pos} {position : Nat} {callee : String} :
    (position, callee) ∈ (b.number 0).1.calls ↔ ∃ place args result,
      b.statements[position]? = some (place, .run (.call callee args result)) := by
  rw [calls_eq, statements_number, List.mem_filterMap]
  constructor
  · rintro ⟨s, hs, hcall⟩
    obtain ⟨i, hi⟩ := List.mem_iff_getElem?.1 hs
    rw [getElem?_numbered, Nat.zero_add] at hi
    obtain ⟨⟨place, act⟩, hplace, rfl⟩ := Option.map_eq_some_iff.1 hi
    obtain ⟨own, hown, heq⟩ := Option.map_eq_some_iff.1 hcall
    cases heq
    obtain ⟨args, result, rfl⟩ := Act.callee?_eq_some_iff.1 hown
    exact ⟨place, args, result, hplace⟩
  · rintro ⟨place, args, result, hplace⟩
    refine ⟨(renumber place position, .run (.call callee args result)), ?_, rfl⟩
    refine List.mem_iff_getElem?.2 ⟨position, ?_⟩
    rw [getElem?_numbered, hplace, Nat.zero_add]
    rfl

theorem pairwise_calls_number (b : Block Pos) (next : Nat) :
    ((b.number next).1.calls.map Prod.fst).Pairwise (· < ·) := by
  refine List.Pairwise.sublist (calls_sublist_places _) ?_
  rw [places_number]
  exact List.pairwise_lt_range'

end Block

/-! ### Bodies of a loaded program -/

/-- The body of a method is a block, and its statements go by their places in preorder: in the body,
in what looks up their lines and in what lists the calls. -/
structure Method.Numbers (m : Method) (b : Block Unit) : Prop where
  /-- The body is the block, with the numbers from 0 on in preorder. -/
  body : ∃ body, m.body = some body ∧ body.unnumbered = b ∧
    body.statements = b.statements.mapIdx fun i s => (⟨i, s.1.line⟩, s.2)
  /-- No number is missing and none occurs twice. -/
  positions : ∀ body, m.body = some body →
    body.statements.map (·.1.position) = List.range b.size
  lineOf : ∀ position, m.lineOf position = b.statements[position]?.bind (·.1.line)
  lineOf_of_le : ∀ position, b.size ≤ position → m.lineOf position = none
  calls : (m.calls.map Prod.fst).Pairwise (· < ·)
  mem_calls : ∀ position callee, (position, callee) ∈ m.calls ↔ ∃ place args result,
    b.statements[position]? = some (place, .run (.call callee args result))

theorem Method.numbers_of_body {m : Method} {b : Block Unit}
    (hbody : m.body = some (b.number 0).1) : m.Numbers b := by
  have hcalls : m.calls = (b.number 0).1.calls := by
    rw [Method.calls, hbody]
    rfl
  have hline (position : Nat) : m.lineOf position = b.statements[position]?.bind (·.1.line) := by
    rw [Method.lineOf, hbody, Option.bind_some, Block.find?_number, Option.bind_map]
    rfl
  have hlength : b.statements.length = b.size := by
    rw [Block.length_statements, Block.length_places]
  refine
    { body := ⟨_, hbody, ?_, ?_⟩
      positions := ?_
      lineOf := hline
      lineOf_of_le := fun position hle => ?_
      calls := hcalls ▸ b.pairwise_calls_number 0
      mem_calls := fun position callee => hcalls ▸ Block.mem_calls_number }
  · rw [Block.unnumbered_number, Block.unnumbered_unit]
  · rw [Block.statements_number, Block.numbered]
    simp only [Nat.zero_add, Block.renumber]
  · intro body h
    rw [hbody] at h
    cases h
    have hplaces := Block.places_number b 0
    rw [← Block.map_fst_statements, List.map_map, Block.length_places, ← List.range_eq_range']
      at hplaces
    exact hplaces
  · rw [hline, List.getElem?_eq_none (hlength ▸ hle)]
    rfl

namespace Program

variable {p q : Program} {d : ProgramDocument}

def outline (m : Method) : String × List String × Option Body := (m.name, m.parameters, m.body)

def documentOutline (m : MethodDocument) : String × List String × Option Body :=
  (m.name, m.parameters, m.body.map fun b => (b.number 0).1)

/-- The methods of a document are the first ones, in the same order. The other ones have no body. -/
def Outlines (p : Program) (d : ProgramDocument) : Prop :=
  ∃ others : List (String × List String × Option Body),
    p.methods.map outline = d.map documentOutline ++ others ∧ ∀ o ∈ others, o.2.2 = none

open Interning

theorem yields_outline_foldlM (ds : ProgramDocument)
    (h : p.methods.map outline = d.map documentOutline) :
    Yields (ds.foldlM addMethod p) fun q =>
      q.methods.map outline = (d ++ ds).map documentOutline := by
  -- what the documents before `ds` have led to is known, hence `d` grows with every step
  induction ds generalizing p d with
  | nil => exact yields_pure (by rwa [List.append_nil])
  | cons m ds ih =>
    have hmethod : (p.addMethod m).Yields fun q =>
        q.methods.map outline = (d ++ [m]).map documentOutline :=
      yields_guard fun _ => yields_bind (yields_true _) fun declared _ => yields_pure (by
        rw [push, List.map_append, List.map_append, h]
        rfl)
    rw [List.foldlM_cons]
    refine yields_bind hmethod fun q hq => ?_
    have hrest := ih hq
    rwa [List.append_assoc] at hrest

theorem Outlines.joinDeclared (h : p.Outlines d) (name : String) (model : Model) :
    (p.joinDeclared name model).Outlines d := by
  obtain ⟨others, houtline, hnone⟩ := h
  rw [joinDeclared_eq]
  split
  · refine ⟨others, ?_, hnone⟩
    rw [← houtline, List.map_map]
    refine List.map_congr_left fun m _ => ?_
    rw [Function.comp_apply, declaring]
    split <;> rfl
  · refine ⟨others ++ [(name, [], none)], ?_, ?_⟩
    · rw [push, List.map_append, houtline, List.append_assoc]
      rfl
    · exact List.forall_mem_append.2 ⟨hnone, List.forall_mem_singleton.2 rfl⟩

/-- Model files add no bodies and change none. -/
theorem yields_outlines (d : ProgramDocument) (entries : List MethodModel) :
    (load d entries).Yields (Outlines · d) := by
  refine yields_bind (yields_outline_foldlM (d := []) d rfl) fun p hp => ?_
  exact yields_foldlM (fun _ e hp => yields_bind (yields_true _) fun model _ =>
    yields_pure (hp.joinDeclared e.method model)) entries ⟨[], by rw [hp]; simp, nofun⟩

theorem Outlines.exists_method (h : p.Outlines d) {i : Nat} {m : MethodDocument}
    (hm : d[i]? = some m) :
    ∃ own, p.methods[i]? = some own ∧ own.name = m.name ∧ own.parameters = m.parameters ∧
      own.body = m.body.map fun b => (b.number 0).1 := by
  obtain ⟨others, houtline, -⟩ := h
  have hi := congrArg (·[i]?) houtline
  simp only [List.getElem?_map] at hi
  rw [List.getElem?_append_left (by
    rw [List.length_map]
    exact (List.getElem?_eq_some_iff.1 hm).1), List.getElem?_map, hm] at hi
  obtain ⟨own, hown, heq⟩ := Option.map_eq_some_iff.1 hi
  exact ⟨own, hown, congrArg Prod.fst heq, congrArg (·.2.1) heq, congrArg (·.2.2) heq⟩

/-- Every body of the program is a numbered block. -/
theorem Outlines.pairwise_calls (h : p.Outlines d) {m : Method} (hm : m ∈ p.methods) :
    (m.calls.map Prod.fst).Pairwise (· < ·) := by
  obtain ⟨others, houtline, hnone⟩ := h
  have hmem : outline m ∈ d.map documentOutline ++ others := houtline ▸ List.mem_map_of_mem hm
  have hbody : m.body = none ∨ ∃ b : Block Unit, m.body = some (b.number 0).1 := by
    rcases List.mem_append.1 hmem with hmem | hmem
    · obtain ⟨own, -, heq⟩ := List.mem_map.1 hmem
      have heq : own.body.map (fun b => (b.number 0).1) = m.body := congrArg (·.2.2) heq
      cases hown : own.body with
      | none => exact .inl (by rw [← heq, hown]; rfl)
      | some b => exact .inr ⟨b, by rw [← heq, hown]; rfl⟩
    · exact .inl (hnone _ hmem)
  rcases hbody with hbody | ⟨b, hbody⟩
  · rw [Method.calls, hbody]
    exact .nil
  · exact (Method.numbers_of_body hbody).calls

end Program

/-! ### First calls -/

/-- In a list with ascending numbers the first item is the one with the least number. -/
theorem find?_fst_eq_some_iff {calls : List (Nat × String)}
    (h : (calls.map Prod.fst).Pairwise (· < ·)) {callee : String} {position : Nat} :
    (calls.find? (·.2 == callee)).map Prod.fst = some position ↔
      IsLeast {n | (n, callee) ∈ calls} position := by
  induction calls with
  | nil => exact ⟨nofun, fun h => nomatch h.1⟩
  | cons call calls ih =>
    obtain ⟨hlt, hcalls⟩ := List.pairwise_cons.1 h
    have hlater (n : Nat) (hn : (n, callee) ∈ calls) : call.1 < n :=
      hlt n (List.mem_map_of_mem hn)
    by_cases hcallee : call.2 = callee
    · subst hcallee
      have hleast : IsLeast {n | (n, call.2) ∈ call :: calls} call.1 := by
        refine ⟨List.mem_cons_self, fun n hn => ?_⟩
        rcases List.mem_cons.1 hn with heq | hn
        · exact Nat.le_of_eq (congrArg Prod.fst heq).symm
        · exact Nat.le_of_lt (hlater n hn)
      rw [List.find?_cons_of_pos (by simp), Option.map_some, Option.some_inj]
      constructor
      · rintro rfl
        exact hleast
      · exact fun hposition => Nat.le_antisymm (hleast.2 hposition.1) (hposition.2 hleast.1)
    · have hset : {n | (n, callee) ∈ call :: calls} = {n | (n, callee) ∈ calls} := by
        ext n
        refine List.mem_cons.trans (or_iff_right fun heq => hcallee ?_)
        exact (congrArg Prod.snd heq).symm
      rw [List.find?_cons_of_neg (by simpa using hcallee), ih hcalls, hset]

namespace CallGraph

theorem pairwise_callees (g : CallGraph) (m : MethodId) :
    (g.callees m).Pairwise fun call call' => call.1.index < call'.1.index :=
  (g.calls.getD m ∅).ascending.imp fun h => Nat.compare_eq_lt.1 h

end CallGraph

namespace Program

/-- In a loaded program the statements of a document are numbered in preorder, and whatever reads
them goes by these numbers. The call graph lists the methods that a method calls in the order of
their ids, each with the least number of a call. -/
theorem numbers_load {d : ProgramDocument} {entries : List MethodModel} {t t' : KindTable}
    {p : Program} (h : (load d entries).runOn t = (.ok p, t')) :
    (∀ (i : Nat) (m : MethodDocument) (b : Block Unit), d[i]? = some m → m.body = some b →
      ∃ own : Method, p.methods[i]? = some own ∧ own.name = m.name ∧ own.Numbers b) ∧
    ∀ m ∈ p.methods,
      ((CallGraph.build p).callees m.id).Pairwise
        (fun call call' => call.1.index < call'.1.index) ∧
      ∀ k position, (k, position) ∈ (CallGraph.build p).callees m.id ↔
        ∃ callee ∈ p.methods, callee.id = k ∧
          IsLeast {n | (n, callee.name) ∈ m.calls} position := by
  have hp : p.WellFormed := yields_load d entries t p t' h
  have houtlines : p.Outlines d := yields_outlines d entries t p t' h
  refine ⟨fun i m b hm hb => ?_, fun m hm => ⟨CallGraph.pairwise_callees _ _, fun k position => ?_⟩⟩
  · obtain ⟨own, hown, hname, -, hbody⟩ := houtlines.exists_method hm
    rw [hb] at hbody
    exact ⟨own, hown, hname, Method.numbers_of_body hbody⟩
  · have hfirst {callee : Method} (hcallee : callee ∈ p.methods) :
        (callee.id, position) ∈ (CallGraph.build p).callees m.id ↔
          IsLeast {n | (n, callee.name) ∈ m.calls} position := by
      rw [CallGraph.mem_callees_iff hp hm hcallee, Method.firstCall?,
        find?_fst_eq_some_iff (houtlines.pairwise_calls hm)]
    constructor
    · intro hcall
      obtain ⟨callee, hcallee, rfl⟩ := (CallGraph.mem_methods_build hp).1
        (CallGraph.closed_build hp m.id k ⟨position, hcall⟩)
      exact ⟨callee, hcallee, rfl, (hfirst hcallee).1 hcall⟩
    · rintro ⟨callee, hcallee, rfl, hleast⟩
      exact (hfirst hcallee).2 hleast

/-- Every block is accepted as the body of a method. -/
theorem load_block (name : String) (parameters : List String) (b : Block Unit) (t : KindTable) :
    (load [⟨name, parameters, some b, none⟩] []).runOn t =
      (.ok ((∅ : Program).push name parameters (some (b.number 0).1) none), t) := rfl

/-- A branch whose arms both call one method, the first arm in a loop and after another call. -/
def nested : Block Unit :=
  .branch ⟨(), some 3⟩
    (.run ⟨(), none⟩ (.call "helper" [] none)
      (.loop ⟨(), none⟩ (.run ⟨(), some 5⟩ (.call "leaf" [] none) .done) .done))
    (.run ⟨(), none⟩ (.call "leaf" [] none) .done)
    (.run ⟨(), none⟩ (.call "helper" [] none) .done)

def nestedDocument : ProgramDocument :=
  [⟨"main", [], some nested, none⟩, ⟨"helper", [], some .done, none⟩]

def nestedEntries : List MethodModel := [⟨"leaf", ⟨[], [], [], [], []⟩⟩]

def nestedProgram : Program :=
  match ((load nestedDocument nestedEntries).runOn ∅).1 with
  | .ok program => program
  | .error _ => ∅

theorem nested_loaded : (load nestedDocument nestedEntries).runOn ∅ = (.ok nestedProgram, ∅) := by
  rfl

theorem numbers_load_nested :
    (load nestedDocument nestedEntries).runOn ∅ = (.ok nestedProgram, ∅) ∧
      (CallGraph.build nestedProgram).callees ⟨0⟩ = [(⟨1⟩, 1), (⟨2⟩, 3)] ∧
      ∃ main : Method, nestedProgram.methods[0]? = some main ∧ main.Numbers nested ∧
        main.lineOf 3 = some 5 ∧ IsLeast {n | (n, "leaf") ∈ main.calls} 3 := by
  obtain ⟨hmethods, hgraph⟩ := numbers_load nested_loaded
  obtain ⟨main, hmain, -, hnumbers⟩ := hmethods 0 _ nested rfl rfl
  have hcallees : (CallGraph.build nestedProgram).callees ⟨0⟩ = [(⟨1⟩, 1), (⟨2⟩, 3)] := by decide
  have hid : main.id = ⟨0⟩ := (yields_load _ _ _ _ _ nested_loaded).ids 0 main hmain
  have hcall : (⟨2⟩, 3) ∈ (CallGraph.build nestedProgram).callees main.id := by
    rw [hid, hcallees]
    decide
  obtain ⟨leaf, hleaf, hkey, hleast⟩ := ((hgraph main (List.mem_of_getElem? hmain)).2 ⟨2⟩ 3).1 hcall
  have hname : ∀ m ∈ nestedProgram.methods, m.id = ⟨2⟩ → m.name = "leaf" := by decide
  rw [hname leaf hleaf hkey] at hleast
  exact ⟨nested_loaded, hcallees, main, hmain, hnumbers, (hnumbers.lineOf 3).trans rfl, hleast⟩

end Program

end TaintFlow
