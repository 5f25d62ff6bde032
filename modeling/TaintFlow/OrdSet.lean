import TaintFlow.OrdMap

/-!
Finite sets, listed in ascending order: maps whose values carry nothing. Sets themselves are ordered
like their listings.
-/

namespace TaintFlow

/-- A finite set, listed in ascending order. -/
structure OrdSet (α : Type) [LinearOrd α] where
  elements : OrdMap α Unit

namespace OrdSet

variable {α β : Type} [LinearOrd α] [LinearOrd β]

instance [DecidableEq α] : DecidableEq (OrdSet α) := fun a b =>
  decidable_of_iff (a.elements = b.elements)
    ⟨fun h => by cases a; cases b; cases h; rfl, fun h => h ▸ rfl⟩

instance : EmptyCollection (OrdSet α) := ⟨⟨∅⟩⟩

instance : Inhabited (OrdSet α) := ⟨∅⟩

/-- The elements in ascending order. -/
def toList (s : OrdSet α) : List α := s.elements.keys

def contains (s : OrdSet α) (a : α) : Bool := s.elements.contains a

instance : Membership α (OrdSet α) := ⟨fun s a => s.contains a = true⟩

instance (a : α) (s : OrdSet α) : Decidable (a ∈ s) :=
  inferInstanceAs (Decidable (s.contains a = true))

def insert (s : OrdSet α) (a : α) : OrdSet α := ⟨s.elements.insert a ()⟩

/-- Adds every element of a list. -/
def insertAll (s : OrdSet α) (as : List α) : OrdSet α := as.foldl insert s

def ofList (as : List α) : OrdSet α := insertAll ∅ as

/-- The keys of a map. -/
def ofKeys {ν : Type} (m : OrdMap α ν) : OrdSet α := ⟨m.mapValues fun _ _ => ()⟩

def union (s t : OrdSet α) : OrdSet α := s.insertAll t.toList

instance : Union (OrdSet α) := ⟨union⟩

/-- The elements that satisfy a test. -/
def filter (p : α → Bool) (s : OrdSet α) : OrdSet α := ⟨s.elements.filter fun a _ => p a⟩

def map (f : α → β) (s : OrdSet α) : OrdSet β := ofList (s.toList.map f)

def isEmpty (s : OrdSet α) : Bool := s.elements.isEmpty

def size (s : OrdSet α) : Nat := s.elements.size

/-- Whether every element of `s` is in `t`. -/
def isSubset (s t : OrdSet α) : Bool := s.toList.all t.contains

theorem lookup_isSome_iff {ν : Type} (k : α) (entries : List (α × ν)) :
    (OrdMap.lookup k entries).isSome ↔ k ∈ entries.map Prod.fst := by
  induction entries with
  | nil => simp [OrdMap.lookup]
  | cons e rest ih =>
    by_cases h : k = e.1
    · simp [OrdMap.lookup, h]
    · simp only [OrdMap.lookup, List.map_cons, List.mem_cons, h, false_or, ← ih]
      simp [h]

theorem mem_toList {s : OrdSet α} {a : α} : a ∈ s.toList ↔ a ∈ s :=
  (lookup_isSome_iff a s.elements.entries).symm

theorem not_mem_empty (a : α) : ¬ a ∈ (∅ : OrdSet α) := fun h => by cases h

theorem mem_insert {s : OrdSet α} {a b : α} : b ∈ s.insert a ↔ b = a ∨ b ∈ s := by
  by_cases h : b = a
  · subst h
    simp [insert, Membership.mem, contains, OrdMap.contains, OrdMap.insert, OrdMap.get?_alter_self]
  · simp [insert, Membership.mem, contains, OrdMap.contains, OrdMap.insert,
      OrdMap.get?_alter_of_ne _ _ h, h]

theorem mem_insertAll {s : OrdSet α} {as : List α} {b : α} :
    b ∈ s.insertAll as ↔ b ∈ as ∨ b ∈ s := by
  induction as generalizing s with
  | nil => simp [insertAll]
  | cons a as ih =>
    have : s.insertAll (a :: as) = (s.insert a).insertAll as := rfl
    rw [this, ih, mem_insert, List.mem_cons]
    exact ⟨fun h => by rcases h with h | h | h <;> simp [h],
      fun h => by rcases h with (h | h) | h <;> simp [h]⟩

theorem mem_ofList {as : List α} {b : α} : b ∈ ofList as ↔ b ∈ as := by
  simp [ofList, mem_insertAll, not_mem_empty]

theorem mem_union {s t : OrdSet α} {b : α} : b ∈ s ∪ t ↔ b ∈ s ∨ b ∈ t := by
  show b ∈ s.insertAll t.toList ↔ _
  rw [mem_insertAll, mem_toList, or_comm]

@[ext]
theorem ext {s t : OrdSet α} (h : ∀ a, a ∈ s ↔ a ∈ t) : s = t := by
  cases s with
  | mk m =>
    cases t with
    | mk m' =>
      congr 1
      ext k : 1
      have hk : (m.get? k).isSome ↔ (m'.get? k).isSome := h k
      cases hm : m.get? k <;> cases hm' : m'.get? k <;> simp_all

theorem toList_injective {s t : OrdSet α} (h : s.toList = t.toList) : s = t :=
  ext fun a => by rw [← mem_toList, h, mem_toList]

/-- Sets are ordered like their listings. -/
instance : LinearOrd (OrdSet α) := .onKey toList fun _ _ => toList_injective

end OrdSet

end TaintFlow
