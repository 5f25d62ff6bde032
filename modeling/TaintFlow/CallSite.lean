import TaintFlow.Order

/-!
Identities of methods and of call instructions.
-/

namespace TaintFlow

/-- The place of a method in the program. -/
structure MethodId where
  index : Nat
  deriving DecidableEq

instance : LinearOrd MethodId := .onKey MethodId.index fun a b h => by cases a; cases b; cases h; rfl

/-- A call instruction: the method that holds it and its position there. -/
structure CallSite where
  method : MethodId
  position : Nat
  deriving DecidableEq

instance : LinearOrd CallSite :=
  .onKey (fun c => (c.method, c.position)) fun a b h => by cases a; cases b; simp_all

end TaintFlow
