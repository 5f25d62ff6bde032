import Mathlib.Data.Finite.Prod
import Mathlib.Data.Finset.Lattice.Lemmas
import Mathlib.Data.Set.Finite.Lattice
import Mathlib.Order.Filter.AtTopBot.Basic
import Mathlib.Order.Filter.Finite
import TaintFlow.Proofs.Containers
import TaintFlow.Model

/-!
Stocks of texts and numbers. Only finitely many values are made of a stock (`Stocked.finite`), and
every value is made of all stocks that are large enough (`Stocked.eventually`). A type usually gets
this from a key, as it does its order.
-/

namespace TaintFlow

open Filter

/-- Some texts, and a bound on numbers and on the lengths of lists. -/
abbrev Stock := Finset String × Nat

/-- Values that are made of texts and numbers. -/
class Stocked (α : Type) where
  /-- Whether a value is made of a stock. -/
  makes : Stock → α → Prop
  finite (W : Stock) : {a | makes W a}.Finite
  eventually (a : α) : ∀ᶠ W in atTop, makes W a

def Stock.Makes {α : Type} [Stocked α] (W : Stock) (a : α) : Prop := Stocked.makes W a

namespace Stocked

variable {α β κ ν : Type} [Stocked α] [Stocked β]

/-- Values are made of what their keys are made of. -/
@[reducible]
def onKey {γ : Type} (key : γ → α) (h : Function.Injective key) : Stocked γ where
  makes W c := W.Makes (key c)
  finite W := (finite W).preimage h.injOn
  eventually c := eventually (key c)

theorem eventually_all {α : Type} (as : List α) {P : Stock → α → Prop}
    (h : ∀ a ∈ as, ∀ᶠ W in atTop, P W a) : ∀ᶠ W in atTop, ∀ a ∈ as, P W a :=
  (Filter.eventually_all_finite (List.finite_toSet as)).2 h

theorem eventually_bound (n : Nat) : ∀ᶠ W : Stock in atTop, n ≤ W.2 :=
  (eventually_ge_atTop (∅, n)).mono fun _ h => h.2

instance : Stocked String where
  makes W text := text ∈ W.1
  finite W := W.1.finite_toSet
  eventually text := (eventually_ge_atTop ({text}, 0)).mono fun _ h => by simpa using h.1

instance : Stocked Nat where
  makes W n := n ≤ W.2
  finite W := Set.finite_le_nat W.2
  eventually := eventually_bound

instance : Stocked Unit where
  makes _ _ := True
  finite _ := Set.toFinite _
  eventually _ := .of_forall fun _ => trivial

instance : Stocked Bool where
  makes _ _ := True
  finite _ := Set.toFinite _
  eventually _ := .of_forall fun _ => trivial

instance : Stocked (α × β) where
  makes W e := W.Makes e.1 ∧ W.Makes e.2
  finite W := (finite W).prod (finite W)
  eventually e := (eventually e.1).and (eventually e.2)

instance : Stocked (α ⊕ β) where
  makes W := Sum.elim W.Makes W.Makes
  finite W := by
    refine (((finite W).image Sum.inl).union ((finite W).image Sum.inr)).subset fun e he => ?_
    cases e with
    | inl a => exact .inl ⟨a, he, rfl⟩
    | inr b => exact .inr ⟨b, he, rfl⟩
  eventually
    | .inl a => eventually a
    | .inr b => eventually b

/-- There are finitely many lists of a bounded length over a finite set. -/
theorem finite_lists {α : Type} {s : Set α} (hs : s.Finite) (bound : Nat) :
    {as : List α | as.length ≤ bound ∧ ∀ a ∈ as, a ∈ s}.Finite := by
  induction bound with
  | zero =>
    refine (Set.finite_singleton []).subset fun as has => ?_
    exact List.length_eq_zero_iff.1 (Nat.le_zero.1 has.1)
  | succ bound ih =>
    refine ((Set.finite_singleton []).union (hs.image2 List.cons ih)).subset fun as has => ?_
    obtain ⟨hlength, hall⟩ := has
    cases as with
    | nil => exact .inl rfl
    | cons a as =>
      refine .inr ⟨a, hall a List.mem_cons_self, as, ⟨?_, fun b hb => ?_⟩, rfl⟩
      · exact Nat.le_of_succ_le_succ hlength
      · exact hall b (List.mem_cons_of_mem a hb)

instance : Stocked (List α) where
  makes W as := as.length ≤ W.2 ∧ ∀ a ∈ as, W.Makes a
  finite W := finite_lists (finite W) W.2
  eventually as := (eventually_bound as.length).and (eventually_all as fun a _ => eventually a)

/-- Among steps that stay within one stock, one leaves nothing new. -/
theorem exists_not {P : Nat → Prop} {f : Nat → α} (W : Stock) (hf : ∀ n, W.Makes (f n))
    (hne : ∀ i j, P i → i < j → f i ≠ f j) : ∃ n, ¬ P n := by
  -- otherwise there were infinitely many values made of the stock
  by_contra hall
  simp only [not_exists, not_not] at hall
  have hinjective : Function.Injective f :=
    Function.Injective.of_lt_imp_ne fun i j hlt => hne i j (hall i) hlt
  exact Set.infinite_of_injective_forall_mem hinjective hf (finite W : {a | W.Makes a}.Finite)

variable [LinearOrd κ] [Stocked κ] [Stocked ν]

instance : Stocked (OrdMap κ ν) where
  makes W := OrdMap.Each fun k v => W.Makes k ∧ W.Makes v
  finite W := by
    -- a map is found again from the set of its entries, and a finite set has finitely many subsets
    have hentries : Function.Injective fun (m : OrdMap κ ν) => {e | e ∈ m.entries} := by
      refine fun m m' h => OrdMap.ext fun k => Option.ext fun v => ?_
      rw [OrdMap.get?_eq_some_iff, OrdMap.get?_eq_some_iff]
      exact iff_of_eq (congrFun h (k, v))
    have hfinite : {e : κ × ν | W.Makes e}.Finite := finite W
    exact (hfinite.finite_subsets.preimage hentries.injOn).subset fun m hm e he =>
      OrdMap.Each.of_mem hm he
  eventually m :=
    (eventually_all m.entries fun e _ => eventually e).mono fun _ h k v hv =>
      h (k, v) (OrdMap.get?_eq_some_iff.1 hv)

instance {α : Type} [LinearOrd α] [Stocked α] : Stocked (OrdSet α) :=
  onKey OrdSet.elements fun s t h => by cases s; cases t; cases h; rfl

end Stocked

namespace Stock

variable {W : Stock} {α : Type} [LinearOrd α] [Stocked α] {s t : OrdSet α} {a : α}

theorem makes_set : W.Makes s ↔ ∀ a ∈ s, W.Makes a := by
  constructor
  · intro h a ha
    exact (h a () (OrdSet.get?_elements.2 ha)).1
  · exact fun h a u ha => ⟨h a (OrdSet.get?_elements.1 ha), trivial⟩

theorem makes_union (hs : W.Makes s) (ht : W.Makes t) : W.Makes (s ∪ t) :=
  makes_set.2 fun a ha => (OrdSet.mem_union.1 ha).elim (makes_set.1 hs a) (makes_set.1 ht a)

theorem makes_insert (hs : W.Makes s) (ha : W.Makes a) : W.Makes (s.insert a) :=
  makes_set.2 fun _ hb => (OrdSet.mem_insert.1 hb).elim (fun h => h ▸ ha) (makes_set.1 hs _)

theorem makes_empty : W.Makes (∅ : OrdSet α) :=
  makes_set.2 fun a ha => absurd ha (OrdSet.not_mem_empty a)

end Stock

/-! ### What models are made of -/

theorem KindId.index_injective : Function.Injective KindId.index :=
  fun a b h => by cases a; cases b; cases h; rfl

theorem Port.parts_injective : Function.Injective fun p : Port => (p.root, p.path) :=
  fun a b h => by cases a; cases b; simp_all

theorem Frame.parts_injective :
    Function.Injective fun f : Frame => (f.label, f.transforms, f.sanitizers) :=
  fun a b h => by cases a; cases b; simp_all

theorem Propagation.parts_injective : Function.Injective fun p : Propagation =>
    (p.input, p.output, p.transforms, p.sanitizers, p.aliasing, p.features) :=
  fun a b h => by cases a; cases b; simp_all

namespace Stocked

instance : Stocked KindId := onKey KindId.index KindId.index_injective

instance : Stocked Segment :=
  onKey (fun | .field name => Sum.inl name | .wildcard => Sum.inr ())
    fun a b h => by cases a <;> cases b <;> simp_all

instance : Stocked Root :=
  onKey (fun | .argument index => Sum.inl index | .result => Sum.inr ())
    fun a b h => by cases a <;> cases b <;> simp_all

instance : Stocked Port := onKey (fun p => (p.root, p.path)) Port.parts_injective

instance : Stocked Label :=
  onKey (fun | .kind id => Sum.inl id | .argument index path => Sum.inr (index, path))
    fun a b h => by cases a <;> cases b <;> simp_all

instance : Stocked Frame :=
  onKey (fun f => (f.label, f.transforms, f.sanitizers)) Frame.parts_injective

/-- The port of a step is a text. It is one of the stock, or that of a port made of it. -/
instance : Stocked Step where
  makes W s := W.Makes (s.method, s.position, s.callee) ∧
    (W.Makes s.port ∨ ∃ p : Port, W.Makes p ∧ p.render = s.port)
  finite W := by
    have hkey : Function.Injective fun s : Step => ((s.method, s.position, s.callee), s.port) :=
      fun a b h => by cases a; cases b; simp_all
    have hports : {text : String | W.Makes text ∨ ∃ p : Port, W.Makes p ∧ p.render = text}.Finite :=
      (finite W).union ((finite W).image Port.render)
    exact ((finite W).prod hports).preimage hkey.injOn
  eventually s := (eventually (s.method, s.position, s.callee)).and
    ((eventually s.port).mono fun _ h => .inl h)

instance : Stocked FrameInfo :=
  onKey (fun i => (i.features, i.trace)) fun a b h => by cases a; cases b; simp_all

instance : Stocked Propagation :=
  onKey (fun p => (p.input, p.output, p.transforms, p.sanitizers, p.aliasing, p.features))
    Propagation.parts_injective

instance : Stocked Model :=
  onKey
    (fun m => (m.generations, m.parameterSources, m.sinks, m.propagations, m.effectSources))
    fun a b h => by cases a; cases b; simp_all

end Stocked

end TaintFlow
