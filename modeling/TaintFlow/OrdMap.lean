import TaintFlow.Order

/-!
Finite maps as lists of entries in strictly ascending key order. The order is part of the type, so
two maps with the same entries are equal (`OrdMap.ext`) and a map has one listing. Every change to
a map is an `alter` at one key; `get?_alter_self` and `get?_alter_of_ne` say what it does to each.
-/

namespace TaintFlow

/-- A list of keyed values in strictly ascending key order. -/
def Ascending {κ ν : Type} [LinearOrd κ] (entries : List (κ × ν)) : Prop :=
  entries.Pairwise fun a b => compare a.1 b.1 = .lt

/-- A finite map, listed in ascending key order. -/
structure OrdMap (κ ν : Type) [LinearOrd κ] where
  entries : List (κ × ν)
  ascending : Ascending entries

namespace OrdMap

variable {κ ν μ : Type} [LinearOrd κ]

instance [DecidableEq κ] [DecidableEq ν] : DecidableEq (OrdMap κ ν) := fun a b =>
  decidable_of_iff (a.entries = b.entries)
    ⟨fun h => by cases a; cases b; cases h; rfl, fun h => h ▸ rfl⟩

def empty : OrdMap κ ν := ⟨[], List.Pairwise.nil⟩

instance : EmptyCollection (OrdMap κ ν) := ⟨empty⟩

instance : Inhabited (OrdMap κ ν) := ⟨empty⟩

/-! ### Entry lists -/

/-- The value listed under a key. -/
def lookup (k : κ) : List (κ × ν) → Option ν
  | [] => none
  | (a, v) :: rest => if compare k a = .eq then some v else lookup k rest

/-- Replaces what an ascending list holds under a key. -/
def alterEntries (k : κ) (f : Option ν → Option ν) : List (κ × ν) → List (κ × ν)
  | [] => ((f none).map (k, ·)).toList
  | (a, v) :: rest =>
    match compare k a with
    | .lt => ((f none).map (k, ·)).toList ++ (a, v) :: rest
    | .eq => ((f (some v)).map (k, ·)).toList ++ rest
    | .gt => (a, v) :: alterEntries k f rest

theorem lookup_eq_none_of_lt {k : κ} {entries : List (κ × ν)}
    (h : ∀ e ∈ entries, compare k e.1 = .lt) : lookup k entries = none := by
  induction entries with
  | nil => rfl
  | cons e rest ih =>
    have he := h e (by simp)
    simp only [lookup, he, reduceCtorEq, if_false]
    exact ih fun e' he' => h e' (by simp [he'])

theorem mem_alterEntries {k : κ} {f : Option ν → Option ν} {entries : List (κ × ν)} {e : κ × ν}
    (h : e ∈ alterEntries k f entries) : e.1 = k ∨ e ∈ entries := by
  have head (v : Option ν) (h : e ∈ (v.map (k, ·)).toList) : e.1 = k := by
    cases v with
    | none => simp at h
    | some v =>
      obtain rfl : e = (k, v) := by simpa using h
      rfl
  induction entries with
  | nil => exact .inl (head _ h)
  | cons a rest ih =>
    unfold alterEntries at h
    split at h
    · exact (List.mem_append.1 h).imp_left (head _)
    · exact (List.mem_append.1 h).imp (head _) (List.mem_cons_of_mem a)
    · rcases List.mem_cons.1 h with rfl | h
      · exact .inr List.mem_cons_self
      · exact (ih h).imp_right (List.mem_cons_of_mem a)

theorem ascending_alterEntries {k : κ} {f : Option ν → Option ν} {entries : List (κ × ν)}
    (h : Ascending entries) : Ascending (alterEntries k f entries) := by
  induction entries with
  | nil => cases hf : f none <;> simp [alterEntries, hf, Ascending]
  | cons a rest ih =>
    obtain ⟨ha, hrest⟩ := List.pairwise_cons.1 h
    unfold alterEntries
    split
    · rename_i hk
      have hall : ∀ e ∈ a :: rest, compare k e.1 = .lt := by
        intro e he
        rcases List.mem_cons.1 he with rfl | he
        · exact hk
        · exact LinearOrd.lt_trans hk (ha e he)
      cases f none with
      | none => exact h
      | some v => exact List.pairwise_cons.2 ⟨hall, h⟩
    · rename_i hk
      obtain rfl := LinearOrd.eq_of_compare hk
      cases f (some a.2) with
      | none => exact hrest
      | some v => exact List.pairwise_cons.2 ⟨ha, hrest⟩
    · rename_i hk
      refine List.pairwise_cons.2 ⟨fun e he => ?_, ih hrest⟩
      rcases mem_alterEntries he with he | he
      · exact he ▸ LinearOrd.lt_of_gt hk
      · exact ha e he

theorem lookup_alterEntries_self {k : κ} {f : Option ν → Option ν} {entries : List (κ × ν)}
    (h : Ascending entries) : lookup k (alterEntries k f entries) = f (lookup k entries) := by
  induction entries with
  | nil => cases hf : f none <;> simp [alterEntries, lookup, hf]
  | cons a rest ih =>
    obtain ⟨ha, hrest⟩ := List.pairwise_cons.1 h
    unfold alterEntries
    split
    · rename_i hk
      have hnone : lookup k (a :: rest) = none := lookup_eq_none_of_lt fun e he => by
        rcases List.mem_cons.1 he with rfl | he
        · exact hk
        · exact LinearOrd.lt_trans hk (ha e he)
      rw [hnone]
      cases f none with
      | none => exact hnone
      | some v => simp [lookup]
    · rename_i hk
      obtain rfl := LinearOrd.eq_of_compare hk
      cases hf : f (some a.2) with
      | none => simp [lookup, hf, lookup_eq_none_of_lt ha]
      | some v => simp [lookup, hf]
    · rename_i hk
      simp [lookup, hk, ih hrest]

theorem lookup_alterEntries_of_ne {k k' : κ} {f : Option ν → Option ν} (hne : k' ≠ k)
    (entries : List (κ × ν)) : lookup k' (alterEntries k f entries) = lookup k' entries := by
  induction entries with
  | nil => cases hf : f none <;> simp [alterEntries, lookup, hf, hne]
  | cons a rest ih =>
    unfold alterEntries
    split
    · cases f none <;> simp [lookup, hne]
    · rename_i hk
      obtain rfl := LinearOrd.eq_of_compare hk
      cases f (some a.2) <;> simp [lookup, hne]
    · simp [lookup, ih]

theorem ascending_eq_of_lookup {as bs : List (κ × ν)} (ha : Ascending as) (hb : Ascending bs)
    (h : ∀ k, lookup k as = lookup k bs) : as = bs := by
  have below {a b : κ × ν} {bs : List (κ × ν)} (hab : compare a.1 b.1 = .lt)
      (hb : ∀ e ∈ bs, compare b.1 e.1 = .lt) : lookup a.1 (b :: bs) = none :=
    lookup_eq_none_of_lt fun e he => by
      rcases List.mem_cons.1 he with rfl | he
      · exact hab
      · exact LinearOrd.lt_trans hab (hb e he)
  have head (a : κ × ν) (as : List (κ × ν)) : lookup a.1 (a :: as) = some a.2 := by
    simp [lookup]
  induction as generalizing bs with
  | nil =>
    cases bs with
    | nil => rfl
    | cons b bs => cases (h b.1).trans (head b bs)
  | cons a as ih =>
    cases bs with
    | nil => cases (head a as).symm.trans (h a.1)
    | cons b bs =>
      obtain ⟨ha₁, ha₂⟩ := List.pairwise_cons.1 ha
      obtain ⟨hb₁, hb₂⟩ := List.pairwise_cons.1 hb
      have hab : a.1 = b.1 := by
        cases hc : compare a.1 b.1 with
        | eq => exact LinearOrd.eq_of_compare hc
        | lt => cases (head a as).symm.trans ((h a.1).trans (below hc hb₁))
        | gt =>
          cases (head b bs).symm.trans ((h b.1).symm.trans (below (LinearOrd.lt_of_gt hc) ha₁))
      have hval : some a.2 = some b.2 :=
        (head a as).symm.trans ((h a.1).trans (hab ▸ head b bs))
      obtain rfl : a = b := Prod.ext hab (Option.some.inj hval)
      congr 1
      refine ih ha₂ hb₂ fun k => ?_
      by_cases hk : k = a.1
      · rw [hk, lookup_eq_none_of_lt ha₁, lookup_eq_none_of_lt hb₁]
      · simpa [lookup, hk] using h k

/-! ### Maps -/

/-- The value of a key. -/
def get? (m : OrdMap κ ν) (k : κ) : Option ν := lookup k m.entries

def contains (m : OrdMap κ ν) (k : κ) : Bool := (m.get? k).isSome

/-- The value of a key, or a default where there is none. -/
def getD (m : OrdMap κ ν) (k : κ) (default : ν) : ν := (m.get? k).getD default

/-- Replaces what the map holds under a key; `none` stands for no entry, before and after. -/
def alter (m : OrdMap κ ν) (k : κ) (f : Option ν → Option ν) : OrdMap κ ν :=
  ⟨alterEntries k f m.entries, ascending_alterEntries m.ascending⟩

def insert (m : OrdMap κ ν) (k : κ) (v : ν) : OrdMap κ ν := m.alter k fun _ => some v

def erase (m : OrdMap κ ν) (k : κ) : OrdMap κ ν := m.alter k fun _ => none

/-- Changes the value of a key, starting from a default where there is none. -/
def update (m : OrdMap κ ν) (k : κ) (default : ν) (f : ν → ν) : OrdMap κ ν :=
  m.alter k fun v => some (f (v.getD default))

def keys (m : OrdMap κ ν) : List κ := m.entries.map Prod.fst

def values (m : OrdMap κ ν) : List ν := m.entries.map Prod.snd

def isEmpty (m : OrdMap κ ν) : Bool := m.entries.isEmpty

def size (m : OrdMap κ ν) : Nat := m.entries.length

/-- The entries that satisfy a test. -/
def filter (p : κ → ν → Bool) (m : OrdMap κ ν) : OrdMap κ ν :=
  ⟨m.entries.filter fun e => p e.1 e.2, List.Pairwise.filter _ m.ascending⟩

/-- Changes every value and no key. -/
def mapValues (f : κ → ν → μ) (m : OrdMap κ ν) : OrdMap κ μ :=
  ⟨m.entries.map fun e => (e.1, f e.1 e.2), by
    simpa [Ascending, List.pairwise_map] using m.ascending⟩

/-- The map of a list of entries, united by `unite` where a key comes more than once. -/
def ofList (unite : ν → ν → ν) (entries : List (κ × ν)) : OrdMap κ ν :=
  entries.foldl (fun m e => m.alter e.1 fun v => some (v.elim e.2 (unite · e.2))) ∅

/-- The map with the keys of both, united by `unite` where both have a value. -/
def union (unite : ν → ν → ν) (m m' : OrdMap κ ν) : OrdMap κ ν :=
  m'.entries.foldl (fun m e => m.alter e.1 fun v => some (v.elim e.2 (unite · e.2))) m

theorem get?_empty (k : κ) : (∅ : OrdMap κ ν).get? k = none := rfl

@[ext]
theorem ext {m m' : OrdMap κ ν} (h : ∀ k, m.get? k = m'.get? k) : m = m' := by
  cases m with
  | mk as ha =>
    cases m' with
    | mk bs hb =>
      obtain rfl := ascending_eq_of_lookup ha hb h
      rfl

theorem get?_alter_self (m : OrdMap κ ν) (k : κ) (f : Option ν → Option ν) :
    (m.alter k f).get? k = f (m.get? k) :=
  lookup_alterEntries_self m.ascending

theorem get?_alter_of_ne (m : OrdMap κ ν) {k k' : κ} (f : Option ν → Option ν) (h : k' ≠ k) :
    (m.alter k f).get? k' = m.get? k' :=
  lookup_alterEntries_of_ne h m.entries

theorem get?_insert [DecidableEq κ] (m : OrdMap κ ν) (k k' : κ) (v : ν) :
    (m.insert k v).get? k' = if k' = k then some v else m.get? k' := by
  split
  · next h => exact h ▸ get?_alter_self m k' _
  · next h => exact get?_alter_of_ne m _ h

theorem get?_erase [DecidableEq κ] (m : OrdMap κ ν) (k k' : κ) :
    (m.erase k).get? k' = if k' = k then none else m.get? k' := by
  split
  · next h => exact h ▸ get?_alter_self m k' _
  · next h => exact get?_alter_of_ne m _ h

theorem get?_update [DecidableEq κ] (m : OrdMap κ ν) (k k' : κ) (default : ν)
    (f : ν → ν) :
    (m.update k default f).get? k' =
      if k' = k then some (f (m.getD k default)) else m.get? k' := by
  split
  · next h => exact h ▸ get?_alter_self m k' _
  · next h => exact get?_alter_of_ne m _ h

theorem get?_mapValues (f : κ → ν → μ) (m : OrdMap κ ν) (k : κ) :
    (m.mapValues f).get? k = (m.get? k).map (f k) := by
  show lookup k (m.entries.map fun e => (e.1, f e.1 e.2)) = (lookup k m.entries).map (f k)
  induction m.entries with
  | nil => rfl
  | cons e rest ih =>
    by_cases h : compare k e.1 = .eq
    · obtain rfl := LinearOrd.eq_of_compare h
      simp [lookup]
    · simp [lookup, h, ih]

end OrdMap

end TaintFlow
