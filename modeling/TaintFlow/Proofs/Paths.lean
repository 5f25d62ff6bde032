import Mathlib.Data.List.TakeWhile
import TaintFlow.TaintTree

/-!
Paths in normal form. A normal form has no wildcard and is no longer than the depth that is told
apart, so that it is a chain of field names. These are the fields before the first wildcard of the
path, unless the depth cuts some off (`Path.exists_fieldsBefore`).
-/

namespace TaintFlow

namespace Path

theorem wildcard_not_mem_normalize (path : Path) (depth : Nat) :
    .wildcard ∉ path.normalize depth := fun h => by
  have hne := List.mem_takeWhile_imp h
  simp at hne

theorem length_normalize_le (path : Path) (depth : Nat) : (path.normalize depth).length ≤ depth :=
  Nat.le_trans (List.takeWhile_prefix _).length_le (List.length_take_le depth path)

theorem normalize_eq_self {path : Path} {depth : Nat} (h : .wildcard ∉ path)
    (hlength : path.length ≤ depth) : path.normalize depth = path := by
  rw [normalize, List.take_of_length_le hlength]
  refine List.takeWhile_eq_self_iff.2 fun s hs => ?_
  exact decide_eq_true fun hwildcard => h (hwildcard ▸ hs)

theorem normalize_normalize (path : Path) (depth : Nat) :
    (path.normalize depth).normalize depth = path.normalize depth :=
  normalize_eq_self (wildcard_not_mem_normalize path depth) (length_normalize_le path depth)

theorem map_fieldNames {path : Path} (h : .wildcard ∉ path) :
    (TaintTree.fieldNames path).map Segment.field = path := by
  induction path with
  | nil => rfl
  | cons s path ih =>
    obtain ⟨hs, hpath⟩ := not_or.1 (mt List.mem_cons.2 h)
    cases s with
    | wildcard => exact absurd rfl hs
    | field name => exact congrArg (.field name :: ·) (ih hpath)

theorem fieldNames_map (names : List String) :
    TaintTree.fieldNames (names.map Segment.field) = names := by
  induction names with
  | nil => rfl
  | cons name names ih => exact congrArg (name :: ·) ih

theorem normalize_map {names : List String} {depth : Nat} (h : names.length ≤ depth) :
    Path.normalize (names.map Segment.field) depth = names.map Segment.field := by
  refine normalize_eq_self (fun hmem => ?_) (by rwa [List.length_map])
  obtain ⟨name, -, hname⟩ := List.mem_map.1 hmem
  cases hname

theorem normalize_isPrefix (path : Path) (depth : Nat) : path.normalize depth <+: path :=
  (List.takeWhile_prefix _).trans (List.take_prefix depth path)

theorem mem_of_mem_normalize {path : Path} {depth : Nat} {s : Segment}
    (h : s ∈ path.normalize depth) : s ∈ path :=
  (normalize_isPrefix path depth).subset h

theorem mem_fieldNames {path : Path} {name : String} :
    name ∈ TaintTree.fieldNames path ↔ .field name ∈ path := by
  rw [TaintTree.fieldNames, List.mem_filterMap]
  constructor
  · rintro ⟨s, hs, heq⟩
    cases s with
    | field n =>
      cases heq
      exact hs
    | wildcard => cases heq
  · intro h
    exact ⟨.field name, h, rfl⟩

theorem length_fieldNames_le (path : Path) (depth : Nat) :
    (TaintTree.fieldNames (path.normalize depth)).length ≤ (path.normalize depth).length :=
  List.length_filterMap_le _ _

theorem normalize_isPrefix_of {path path' : Path} (h : path' <+: path) (depth : Nat) :
    path'.normalize depth <+: path.normalize depth := by
  obtain ⟨rest, rfl⟩ := h
  rw [normalize, normalize, List.take_append, List.takeWhile_append]
  split
  · next hall =>
    rw [List.IsPrefix.eq_of_length (List.takeWhile_prefix _) hall]
    exact List.prefix_append _ _
  · exact List.prefix_refl _

/-- The fields of a path before its first wildcard. -/
def fieldsBefore (path : Path) : List String :=
  TaintTree.fieldNames (path.takeWhile (· ≠ .wildcard))

theorem fieldsBefore_nil : fieldsBefore [] = [] := rfl

theorem fieldsBefore_field (name : String) (path : Path) :
    fieldsBefore (.field name :: path) = name :: fieldsBefore path := by
  simp [fieldsBefore, TaintTree.fieldNames]

theorem fieldsBefore_wildcard (path : Path) : fieldsBefore (.wildcard :: path) = [] := by
  simp [fieldsBefore, TaintTree.fieldNames]

theorem map_fieldsBefore_isPrefix (path : Path) : path.fieldsBefore.map .field <+: path := by
  rw [fieldsBefore, map_fieldNames fun h => by simpa using List.mem_takeWhile_imp h]
  exact List.takeWhile_prefix _

theorem fieldsBefore_append {path : Path} (h : .wildcard ∉ path) (rest : Path) :
    fieldsBefore (path ++ rest) = TaintTree.fieldNames path ++ rest.fieldsBefore := by
  induction path with
  | nil => rfl
  | cons s path ih =>
    obtain ⟨hs, hpath⟩ := not_or.1 (mt List.mem_cons.2 h)
    cases s with
    | wildcard => exact absurd rfl hs
    | field name =>
      rw [List.cons_append, fieldsBefore_field, ih hpath]
      rfl

theorem fieldsBefore_of_fields {path : Path} (h : .wildcard ∉ path) :
    path.fieldsBefore = TaintTree.fieldNames path := by
  simpa [fieldsBefore_nil] using fieldsBefore_append h []

theorem fieldNames_isPrefix_iff {path path' : Path} (h : .wildcard ∉ path)
    (h' : .wildcard ∉ path') :
    TaintTree.fieldNames path <+: TaintTree.fieldNames path' ↔ path <+: path' := by
  constructor
  · intro hnames
    rw [← map_fieldNames h, ← map_fieldNames h']
    exact hnames.map Segment.field
  · exact fun hpath => hpath.filterMap _

theorem normalize_eq_take (path : Path) (depth : Nat) :
    path.normalize depth = (path.takeWhile (· ≠ .wildcard)).take depth :=
  List.take_takeWhile.symm

/-- What is behind a wildcard is cut off. -/
theorem normalize_fieldsBefore (path : Path) (depth : Nat) :
    Path.normalize (path.fieldsBefore.map Segment.field) depth = path.normalize depth := by
  rw [normalize_eq_take, normalize_eq_take, fieldsBefore,
    map_fieldNames fun h => by simpa using List.mem_takeWhile_imp h, List.takeWhile_takeWhile]
  simp

/-- The fields of a path before its first wildcard are those of its normal form, unless the depth
cuts some off. -/
theorem exists_fieldsBefore (path : Path) (depth : Nat) :
    ∃ more, path.fieldsBefore = TaintTree.fieldNames (path.normalize depth) ++ more ∧
      (more = [] ∨ (path.normalize depth).length = depth) := by
  refine ⟨TaintTree.fieldNames ((path.takeWhile (· ≠ .wildcard)).drop depth), ?_, ?_⟩
  · rw [normalize_eq_take, TaintTree.fieldNames, TaintTree.fieldNames, ← List.filterMap_append,
      List.take_append_drop]
    rfl
  · rw [normalize_eq_take, List.length_take]
    rcases Nat.le_total (path.takeWhile (· ≠ .wildcard)).length depth with h | h
    · exact .inl (by rw [List.drop_of_length_le h]; rfl)
    · exact .inr (Nat.min_eq_left h)

/-- A path goes on with the fields of another, or with none behind a wildcard. -/
theorem exists_fieldsBefore_append (path path' : Path) :
    ∃ more, (path ++ path').fieldsBefore = path.fieldsBefore ++ more ∧
      (more = [] ∨ more = path'.fieldsBefore) := by
  induction path with
  | nil => exact ⟨path'.fieldsBefore, rfl, .inr rfl⟩
  | cons s path ih =>
    cases s with
    | wildcard =>
      refine ⟨[], ?_, .inl rfl⟩
      rw [List.cons_append, fieldsBefore_wildcard, fieldsBefore_wildcard, List.append_nil]
    | field name =>
      obtain ⟨more, hmore, hbehind⟩ := ih
      refine ⟨more, ?_, hbehind⟩
      rw [List.cons_append, fieldsBefore_field, fieldsBefore_field, hmore, List.cons_append]

end Path

end TaintFlow
