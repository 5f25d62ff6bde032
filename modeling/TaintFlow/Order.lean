/-!
Total orders in which only equal values tie. Sets and maps are kept sorted by such an order, so
that equal contents mean equal values. A type usually gets its order from a key: an injective
function into a type that already has one.
-/

namespace TaintFlow

/-- A comparison that is a total order and ties only on equal values. -/
class LinearOrd (α : Type) extends Ord α where
  transOrd : Std.TransOrd α
  lawfulEqOrd : Std.LawfulEqOrd α

namespace LinearOrd

variable {α β : Type}

instance [LinearOrd α] : Std.TransOrd α := transOrd

instance [LinearOrd α] : Std.LawfulEqOrd α := lawfulEqOrd

section

variable [LinearOrd α] {a b c : α}

theorem eq_of_compare (h : compare a b = .eq) : a = b := Std.LawfulEqCmp.eq_of_compare h

theorem compare_self : compare a a = .eq := Std.ReflCmp.compare_self

theorem lt_of_gt (h : compare a b = .gt) : compare b a = .lt := Std.OrientedCmp.gt_iff_lt.1 h

theorem gt_of_lt (h : compare a b = .lt) : compare b a = .gt := Std.OrientedCmp.gt_iff_lt.2 h

theorem lt_trans (hab : compare a b = .lt) (hbc : compare b c = .lt) : compare a c = .lt :=
  Std.TransCmp.lt_trans hab hbc

theorem ne_of_lt (h : compare a b = .lt) : a ≠ b := by
  rintro rfl
  rw [compare_self] at h
  cases h

end

instance : LinearOrd Nat := ⟨inferInstance, inferInstance⟩

instance : LinearOrd Int := ⟨inferInstance, inferInstance⟩

instance : LinearOrd Bool := ⟨inferInstance, inferInstance⟩

instance : LinearOrd String := ⟨inferInstance, inferInstance⟩

instance : LinearOrd Unit where
  compare _ _ := .eq
  transOrd := { eq_swap := rfl, isLE_trans := fun _ _ => rfl }
  lawfulEqOrd := { eq_of_compare := fun _ => rfl, compare_self := rfl }

/-- Lists are compared element by element, and a list comes before its extensions. -/
instance [LinearOrd α] : LinearOrd (List α) := ⟨inferInstance, inferInstance⟩

/-- Pairs are compared by their first components, then by their second ones. -/
instance [LinearOrd α] [LinearOrd β] : LinearOrd (α × β) :=
  letI : Ord (α × β) := lexOrd
  ⟨inferInstance, inferInstance⟩

/-- The order of the values of an injective key. -/
@[reducible]
def onKey [LinearOrd β] (key : α → β) (injective : ∀ a b, key a = key b → a = b) :
    LinearOrd α where
  compare := compareOn key
  transOrd := inferInstanceAs (Std.TransCmp (compareOn key))
  lawfulEqOrd :=
    { eq_of_compare := fun h => injective _ _ (eq_of_compare h)
      compare_self := compare_self }

end LinearOrd

end TaintFlow
