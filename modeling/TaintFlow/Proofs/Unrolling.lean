import Mathlib.Data.List.Nodup
import TaintFlow.Program.Block

/-!
Loops and their unrollings. `unroll` replaces a loop by nested branches, each of which takes the
body of the loop and then the next branch. Its statements keep their numbers, so that a statement of
the loop occurs in every copy under one number; the block is numbered again before it is a body, and
`former` gives the numbers back. `Unrolls` relates a block to any unrolling of its loops: a loop is
kept, or left out, or its body is taken once and the loop is unrolled from there.
-/

namespace TaintFlow

namespace Block

variable {Pos : Type}

def append : Block Pos → Block Pos → Block Pos
  | done, next => next
  | run place i rest, next => run place i (rest.append next)
  | leave place value rest, next => leave place value (rest.append next)
  | branch place taken skipped rest, next => branch place taken skipped (rest.append next)
  | loop place body rest, next => loop place body (rest.append next)

/-- Nested branches, each of which takes a block and then the next branch. -/
def copies (place : Place Pos) (body : Block Pos) : Nat → Block Pos
  | 0 => done
  | k + 1 => branch place (body.append (copies place body k)) done done

/-- Replaces the loop with a number by copies of its body. -/
def unroll (position k : Nat) : Body → Body
  | done => done
  | run place i rest => run place i (rest.unroll position k)
  | leave place value rest => leave place value (rest.unroll position k)
  | branch place taken skipped rest =>
    branch place (taken.unroll position k) (skipped.unroll position k) (rest.unroll position k)
  | loop place body rest =>
    if place.position = position then (copies place body k).append (rest.unroll position k)
    else loop place (body.unroll position k) (rest.unroll position k)

def former (b : Body) (position : Nat) : Nat :=
  ((b.places[position]?).map Place.position).getD position

/-- The second block is an unrolling of the first one. Its instructions have numbers of their own,
and `φ` gives the number of the instruction that an instruction is a copy of. -/
inductive Unrolls (φ : Nat → Nat) : Body → Body → Prop
  | done : Unrolls φ done done
  | run {position : Nat} {line : Option Nat} {i : Instruction} {rest rest' : Body} :
    Unrolls φ rest rest' → Unrolls φ (run ⟨φ position, line⟩ i rest) (run ⟨position, line⟩ i rest')
  | leave {place place' : Place Nat} {value : Option String} {rest rest' : Body} :
    Unrolls φ (leave place value rest) (leave place' value rest')
  | branch {place place' : Place Nat} {taken taken' skipped skipped' rest rest' : Body} :
    Unrolls φ taken taken' → Unrolls φ skipped skipped' → Unrolls φ rest rest' →
      Unrolls φ (branch place taken skipped rest) (branch place' taken' skipped' rest')
  | loop {place place' : Place Nat} {body body' rest rest' : Body} :
    Unrolls φ body body' → Unrolls φ rest rest' →
      Unrolls φ (loop place body rest) (loop place' body' rest')
  /-- The loop is left out. -/
  | skip {place : Place Nat} {body rest rest' : Body} :
    Unrolls φ rest rest' → Unrolls φ (loop place body rest) rest'
  /-- The body of the loop is taken once, and then the loop is unrolled. -/
  | peel {place place' : Place Nat} {body copy next rest rest' : Body} :
    Unrolls φ body copy → Unrolls φ (loop place body .done) next → Unrolls φ rest rest' →
      Unrolls φ (loop place body rest) (branch place' (copy.append next) .done rest')

/-! ### Numbers -/

theorem places_append (b c : Block Pos) : (b.append c).places = b.places ++ c.places := by
  induction b with
  | done => rfl
  | run place i rest ih => simp [append, places, ih]
  | leave place value rest ih => simp [append, places, ih]
  | branch place taken skipped rest _ _ ih => simp [append, places, ih]
  | loop place body rest _ ih => simp [append, places, ih]

theorem append_done (b : Block Pos) : b.append done = b := by
  induction b with
  | done => rfl
  | run place i rest ih => simp [append, ih]
  | leave place value rest ih => simp [append, ih]
  | branch place taken skipped rest _ _ ih => simp [append, ih]
  | loop place body rest _ ih => simp [append, ih]

theorem number_snd (b : Block Pos) (next : Nat) : (b.number next).2 = next + b.places.length := by
  induction b generalizing next with
  | done => rfl
  | run place i rest ih =>
    simp only [number, places, List.length_cons, ih]
    omega
  | leave place value rest ih =>
    simp only [number, places, List.length_cons, ih]
    omega
  | branch place taken skipped rest ihTaken ihSkipped ihRest =>
    simp only [number, places, List.length_cons, List.length_append, ihTaken, ihSkipped, ihRest]
    omega
  | loop place body rest ihBody ihRest =>
    simp only [number, places, List.length_cons, List.length_append, ihBody, ihRest]
    omega

theorem number_append (b c : Block Pos) (next : Nat) :
    ((b.append c).number next).1 =
      (b.number next).1.append (c.number (next + b.places.length)).1 := by
  induction b generalizing next with
  | done => rfl
  | run place i rest ih =>
    simp only [append, number, places, List.length_cons, ih]
    rw [Nat.add_assoc, Nat.add_comm 1]
  | leave place value rest ih =>
    simp only [append, number, places, List.length_cons, ih]
    rw [Nat.add_assoc, Nat.add_comm 1]
  | branch place taken skipped rest _ _ ihRest =>
    simp only [append, number, places, List.length_cons, List.length_append, number_snd, ihRest]
    congr 4
    omega
  | loop place body rest _ ihRest =>
    simp only [append, number, places, List.length_cons, List.length_append, number_snd, ihRest]
    congr 4
    omega

/-- The statements of a numbered block have consecutive numbers. -/
theorem places_number (b : Block Pos) (next : Nat) :
    (b.number next).1.places.map Place.position = List.range' next b.places.length := by
  induction b generalizing next with
  | done => rfl
  | run place i rest ih =>
    simp [number, places, renumber, ih, List.range'_succ]
  | leave place value rest ih =>
    simp [number, places, renumber, ih, List.range'_succ]
  | branch place taken skipped rest ihTaken ihSkipped ihRest =>
    simp only [number, places, renumber, List.map_cons, List.map_append, ihTaken, ihSkipped, ihRest,
      number_snd, List.length_cons, List.length_append]
    rw [List.range'_append_1, Nat.add_assoc (next + 1), List.range'_append_1, List.range'_succ]
  | loop place body rest ihBody ihRest =>
    simp only [number, places, renumber, List.map_cons, List.map_append, ihBody, ihRest, number_snd,
      List.length_cons, List.length_append]
    rw [List.range'_append_1, List.range'_succ]

theorem calls_sublist_places (b : Body) :
    (b.calls.map Prod.fst).Sublist (b.places.map Place.position) := by
  induction b with
  | done => exact .slnil
  | run place i rest ih =>
    cases i with
    | call callee args result => exact ih.cons_cons _
    | fresh dest => exact ih.cons _
    | move dest src => exact ih.cons _
    | fieldRead dest base field => exact ih.cons _
    | fieldWrite base field src => exact ih.cons _
  | leave place value rest ih => exact ih.cons _
  | branch place taken skipped rest ihTaken ihSkipped ihRest =>
    simp only [calls, places, List.map_append, List.map_cons]
    exact ((ihTaken.append ihSkipped).append ihRest).cons _
  | loop place body rest ihBody ihRest =>
    simp only [calls, places, List.map_append, List.map_cons]
    exact (ihBody.append ihRest).cons _

/-- Calls of a numbered block are told apart by their numbers. -/
theorem nodup_calls_number (b : Block Pos) (next : Nat) :
    ((b.number next).1.calls.map Prod.fst).Nodup := by
  refine (calls_sublist_places _).nodup ?_
  rw [places_number]
  exact List.nodup_range'

theorem callee_unique (b : Block Pos) {next position : Nat} {callee callee' : String}
    (h : (position, callee) ∈ (b.number next).1.calls)
    (h' : (position, callee') ∈ (b.number next).1.calls) : callee = callee' :=
  congrArg Prod.snd (List.inj_on_of_nodup_map (b.nodup_calls_number next) h h' rfl)

/-! ### Unrollings -/

theorem Unrolls.refl (b : Body) : Unrolls id b b := by
  induction b with
  | done => exact .done
  | run place i rest ih => exact @Unrolls.run id _ _ i _ _ ih
  | leave place value rest _ => exact .leave
  | branch place taken skipped rest ihTaken ihSkipped ihRest =>
    exact .branch ihTaken ihSkipped ihRest
  | loop place body rest ihBody ihRest => exact .loop ihBody ihRest

/-- Copies of the body of a loop are an unrolling of the loop. -/
theorem unrolls_copies {place : Place Nat} {body rest rest' : Body} (hrest : Unrolls id rest rest')
    (k : Nat) : Unrolls id (.loop place body rest) ((copies place body k).append rest') := by
  induction k generalizing rest rest' with
  | zero => exact .skip hrest
  | succ k ih =>
    refine .peel (.refl body) ?_ hrest
    have hnext : Unrolls id (.loop place body .done) ((copies place body k).append .done) :=
      ih .done
    rwa [append_done] at hnext

theorem unrolls_unroll (position k : Nat) (b : Body) : Unrolls id b (b.unroll position k) := by
  induction b with
  | done => exact .done
  | run place i rest ih => exact @Unrolls.run id _ _ i _ _ ih
  | leave place value rest _ => exact .leave
  | branch place taken skipped rest ihTaken ihSkipped ihRest =>
    exact .branch ihTaken ihSkipped ihRest
  | loop place body rest ihBody ihRest =>
    unfold unroll
    split
    · exact unrolls_copies ihRest k
    · exact .loop ihBody ihRest

/-- `φ` gives the numbers of statements that are numbered again from `next`. -/
def Renumbers (φ : Nat → Nat) (next : Nat) (ps : List (Place Nat)) : Prop :=
  ∀ i place, ps[i]? = some place → φ (next + i) = place.position

section

variable {φ : Nat → Nat} {next : Nat} {place : Place Nat} {ps qs : List (Place Nat)}

theorem Renumbers.head (h : Renumbers φ next (place :: ps)) : φ next = place.position :=
  h 0 place rfl

theorem Renumbers.tail (h : Renumbers φ next (place :: ps)) : Renumbers φ (next + 1) ps :=
  fun i place hi => by rw [Nat.add_assoc, Nat.add_comm 1, h (i + 1) place hi]

theorem Renumbers.left (h : Renumbers φ next (ps ++ qs)) : Renumbers φ next ps := fun i place hi =>
  h i place (by rw [List.getElem?_append_left (List.getElem?_eq_some_iff.1 hi).1, hi])

theorem Renumbers.right (h : Renumbers φ next (ps ++ qs)) : Renumbers φ (next + ps.length) qs :=
  fun i place hi => by
    rw [Nat.add_assoc]
    exact h (ps.length + i) place (by
      rw [List.getElem?_append_right (Nat.le_add_right _ i), Nat.add_sub_cancel_left, hi])

theorem renumbers_former (b : Body) : Renumbers b.former 0 b.places := fun i place hi => by
  rw [former, Nat.zero_add, hi]
  rfl

end

/-- An unrolling stays one when its statements are numbered again. -/
theorem Unrolls.number {φ : Nat → Nat} {b u : Body} (h : Unrolls id b u) {next : Nat}
    (hnumbers : Renumbers φ next u.places) : Unrolls φ b (u.number next).1 := by
  induction h generalizing next with
  | done => exact .done
  | @run position line i rest rest' _ ih =>
    have hrest := ih hnumbers.tail
    have hposition : φ next = id position := hnumbers.head
    rw [← hposition]
    exact .run hrest
  | leave => exact .leave
  | branch _ _ _ ihTaken ihSkipped ihRest =>
    have htail := hnumbers.tail
    simp only [Block.number, number_snd]
    refine .branch (ihTaken htail.left.left) (ihSkipped htail.left.right) (ihRest ?_)
    rw [Nat.add_assoc, ← List.length_append]
    exact htail.right
  | loop _ _ ihBody ihRest =>
    have htail := hnumbers.tail
    simp only [Block.number, number_snd]
    exact .loop (ihBody htail.left) (ihRest htail.right)
  | skip _ ih => exact .skip (ih hnumbers)
  | @peel place place' body copy later rest rest' _ _ _ ihCopy ihNext ihRest =>
    have htail := hnumbers.tail
    simp only [places, List.append_nil] at htail
    have hcopies := htail.left
    rw [places_append] at hcopies
    simp only [Block.number, number_snd, number_append]
    refine .peel (ihCopy hcopies.left) (ihNext hcopies.right) (ihRest ?_)
    exact htail.right

/-- A numbered body and the body with a loop unrolled, numbered from 0. -/
theorem unrolls_numbered (position k : Nat) (b : Body) :
    Unrolls (b.unroll position k).former b ((b.unroll position k).number 0).1 :=
  (unrolls_unroll position k b).number (renumbers_former _)

end Block

end TaintFlow
