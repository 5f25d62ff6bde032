import TaintFlow.Proofs.PointwiseJoins
import TaintFlow.Proofs.Termination

/-!
States that are made of a stock. A tree is found again from its frames and its fields, level by
level, and lists fields at boundedly many levels, so a stock makes finitely many trees
(`Node.finite_fits`), and finitely many states. A walk brings no more: all that a body names and its
callees hand back is made of every stock that is large enough, and such a walk leads from states
that a stock makes to such states only (`Stock.keeps`).
-/

namespace TaintFlow

open Filter

/-! ### Locations -/

theorem MethodId.index_injective : Function.Injective MethodId.index :=
  fun a b h => by cases a; cases b; cases h; rfl

theorem Origin.parts_injective : Function.Injective fun o : Origin => (o.method, o.site) :=
  fun a b h => by cases a; cases b; simp_all

theorem Location.parts_injective : Function.Injective fun l : Location => (l.origin, l.path) :=
  fun a b h => by cases a; cases b; simp_all

namespace Stocked

instance : Stocked MethodId := onKey MethodId.index MethodId.index_injective

instance : Stocked Site :=
  onKey (fun | .parameter index => Sum.inl index | .instruction position => Sum.inr position)
    fun a b h => by cases a <;> cases b <;> simp_all

instance : Stocked Origin := onKey (fun o => (o.method, o.site)) Origin.parts_injective

instance : Stocked Location := onKey (fun l => (l.origin, l.path)) Location.parts_injective

end Stocked

namespace Stock

/-- What is made of a stock, as a vocabulary. Fields are listed at as many levels as the bound
says. -/
def vocabulary (W : Stock) : Vocabulary where
  name name := W.Makes name
  level k := k < W.2
  origin o := W.Makes o
  frames fs := W.Makes fs

variable {W : Stock}

theorem fits_location {l : Location} : l.Fits W.vocabulary ↔ W.Makes l := by
  constructor
  · rintro ⟨horigin, hpath, hlevel⟩
    refine ⟨horigin, le_of_forall_lt hlevel, fun s hs => ?_⟩
    cases s with
    | field name => exact hpath name hs
    | wildcard => trivial
  · rintro ⟨horigin, hlength, hsegments⟩
    exact ⟨horigin, fun name hname => hsegments _ hname, fun k hk => hk.trans_le hlength⟩

end Stock

/-! ### Trees -/

namespace Node

variable {V : Vocabulary} {t u : Node} {k : Nat} {name : String}

/-- A node is determined by its frames and by the nodes at its fields. -/
theorem ext_of_child? (ht : t.Ordered) (hu : u.Ordered) (hframes : t.frames = u.frames)
    (hchild : ∀ name, t.child? name = u.child? name) : t = u := by
  have hreaches (names : List String) : t.Reaches names ↔ u.Reaches names := by
    cases names with
    | nil => exact Iff.rfl
    | cons name names => simp only [Reaches, hchild]
  have hcover (names : List String) : t.cover 0 names = u.cover 0 names := by
    cases names with
    | nil => exact hframes
    | cons name names => rw [cover_cons, cover_cons, step, step, hchild, hframes]
  exact ext_of_cover ht hu hreaches hcover

theorem Fits.name_of_child? (ht : t.Fits V k) (hu : t.child? name = some u) : V.name name := by
  induction t with
  | bare fs => cases hu
  | field n child rest _ ih =>
    unfold Node.child? at hu
    split at hu
    · next heq => exact heq ▸ ht.1.1
    · exact ih ht.2.2 hu

/-- Below the last level at which fields may be listed, there are none. -/
theorem Fits.eq_bare (ht : t.Fits V k) (hlevel : ¬ V.level k) : t = .bare t.frames := by
  cases t with
  | bare fs => rfl
  | field n child rest => exact absurd ht.1.2 hlevel

theorem finite_fits (W : Stock) (left k : Nat) (h : W.2 ≤ k + left) :
    {t : Node | t.Ordered ∧ t.Fits W.vocabulary k}.Finite := by
  have hframes : {fs : FrameSet | W.Makes fs}.Finite := Stocked.finite W
  induction left generalizing k with
  | zero =>
    refine (hframes.image bare).subset fun t ⟨_, ht⟩ => ?_
    exact ⟨t.frames, ht.frames, (ht.eq_bare (Nat.not_lt.2 h)).symm⟩
  | succ left ih =>
    have hchildren := ih (k + 1) (by omega)
    have hnames : {name : String | W.Makes name}.Finite := Stocked.finite W
    -- a node is found again from its frames and the set of its fields with the nodes at them
    refine Set.Finite.of_injOn (f := fun t => (t.frames, {e | t.child? e.1 = some e.2}))
      (fun t ⟨hordered, ht⟩ => ?_) (fun t ⟨ht, _⟩ u ⟨hu, _⟩ heq => ?_)
      (hframes.prod (hnames.prod hchildren).finite_subsets)
    · exact ⟨ht.frames, fun e he => ⟨ht.name_of_child? he, hordered.child? he, ht.child? he⟩⟩
    · obtain ⟨hframes, hfields⟩ := Prod.ext_iff.1 heq
      exact ext_of_child? ht hu hframes fun name => Option.ext fun child =>
        Set.ext_iff.1 hfields (name, child)

theorem eventually_fits (t : Node) (k : Nat) : ∀ᶠ W : Stock in atTop, t.Fits W.vocabulary k := by
  induction t generalizing k with
  | bare fs => exact Stocked.eventually fs
  | field name child rest ihChild ihRest =>
    filter_upwards [Stocked.eventually name, Stocked.eventually_bound (k + 1), ihChild (k + 1),
      ihRest k] with W hname hlevel hchild hrest
    exact ⟨⟨hname, hlevel⟩, hchild, hrest⟩

end Node

instance : Stocked TaintTree where
  makes W t := t.Fits W.vocabulary
  finite W := by
    have hroot : Function.Injective TaintTree.root := fun t u h => by cases t; cases u; cases h; rfl
    have hnodes := Node.finite_fits W W.2 0 (Nat.le_of_eq (Nat.zero_add _).symm)
    exact (hnodes.preimage hroot.injOn).subset fun t ht => ⟨t.ordered, ht⟩
  eventually t := t.root.eventually_fits 0

/-! ### States -/

instance : Stocked State :=
  Stocked.onKey (fun s => (s.aliases, s.taint)) fun s t h => by cases s; cases t; simp_all

theorem Stock.makes_state {W : Stock} {s : State} : W.Makes s ↔
    s.Fits W.vocabulary ∧ ∀ register, s.isBound register = true → W.Makes register := by
  constructor
  · rintro ⟨haliases, htaint⟩
    refine ⟨⟨fun register l hl => ?_, fun o tree htree => htaint o tree htree⟩,
      fun register hbound => ?_⟩
    · unfold State.read OrdMap.getD at hl
      cases hL : s.aliases.get? register with
      | none =>
        rw [hL] at hl
        exact absurd hl (OrdSet.not_mem_empty l)
      | some L =>
        rw [hL] at hl
        exact fits_location.2 (makes_set.1 (haliases register L hL).2 l hl)
    · obtain ⟨L, hL⟩ := OrdMap.contains_iff.1 hbound
      exact (haliases register L hL).1
  · rintro ⟨hfits, hbound⟩
    refine ⟨fun register L hL => ⟨hbound register (OrdMap.contains_iff.2 ⟨L, hL⟩), ?_⟩,
      fun o tree htree => hfits.tree o tree htree⟩
    refine makes_set.2 fun l hl => fits_location.1 (hfits.bound register l ?_)
    rw [State.read, OrdMap.getD, hL]
    exact hl

/-! ### Registers that are bound -/

def Instruction.dest? : Instruction → Option String
  | .fresh dest => some dest
  | .move dest _ => some dest
  | .fieldRead dest _ _ => some dest
  | .fieldWrite _ _ _ => none
  | .call _ _ result => result

section

variable {s : State} {register r : String} {L : AliasSet} {path : Path} {tree : TaintTree}
  {strong : Bool} {depth : Nat}

theorem State.isBound_bind :
    (s.bind register L).isBound r = true ↔ r = register ∨ s.isBound r = true := by
  simp only [isBound, bind, OrdMap.contains, OrdMap.get?_insert]
  split <;> simp_all

theorem State.isBound_writeAll :
    (s.writeAll L path tree strong depth).isBound r = s.isBound r :=
  List.foldlRecOn (motive := fun u => State.isBound u r = s.isBound r) L.toList _ rfl
    fun _ hu _ _ => hu

theorem Call.isBound_run {h : Heuristics} {c : Call} {callee : Callee} {result : Option String}
    (hr : (c.run h callee result s).1.isBound r = true) : s.isBound r = true ∨ result = some r := by
  have hafter (outputs : List (Root × TaintTree)) :
      (outputs.foldl (fun s e => c.writeArgument h s e.1 e.2) s).isBound r = s.isBound r := by
    refine List.foldlRecOn (motive := fun u => State.isBound u r = s.isBound r) outputs _ rfl
      fun u hu e _ => ?_
    unfold writeArgument
    split
    · rw [State.isBound_writeAll, hu]
    · exact hu
  have hfinish {t : State} (ht : t.isBound r = s.isBound r) {register : String}
      {returned : TaintTree} {shared : AliasSet}
      (hr : (c.bindResult h t register returned shared).isBound r = true) :
      s.isBound r = true ∨ some register = some r := by
    rcases State.isBound_bind.1 hr with rfl | hr
    · exact .inr rfl
    · exact .inl (ht ▸ hr)
  cases callee <;> cases result
  · exact .inl (hafter _ ▸ hr)
  · exact hfinish (hafter _) hr
  · exact .inl hr
  · exact hfinish rfl hr

theorem Walk.isBound_apply {w : Walk} {position : Nat} {instruction : Instruction}
    (hr : (w.apply position instruction s).1.isBound r = true) :
    s.isBound r = true ∨ instruction.dest? = some r := by
  cases instruction with
  | fresh dest | move dest src | fieldRead dest base field =>
    rcases State.isBound_bind.1 hr with rfl | hr
    · exact .inr rfl
    · exact .inl hr
  | fieldWrite base field src => exact .inl (State.isBound_writeAll ▸ hr)
  | call callee args result => exact Call.isBound_run hr

end

/-! ### Walks -/

namespace Stock

variable {W : Stock} {w : Walk} {body : Body}

theorem vocabulary_closed {h : Heuristics} {kinds : KindTable} (hW : W.Covers h kinds) :
    W.vocabulary.Closed h.maxFieldDepth :=
  have hframes := (contract_closed hW).vocabulary
  { level_of_lt := fun hk => Nat.lt_of_lt_of_le hk hW.depth
    level_pred := Nat.lt_of_succ_lt
    empty := hframes.empty
    join := hframes.join
    below := hframes.below
    addFeature := hframes.addFeature }

theorem eventually_callee (w : Walk) (call : Nat × String) : ∀ᶠ W : Stock in atTop,
    (w.summaries call.2).Fits W.vocabulary w.heuristics (w.stepAt call) := by
  cases w.summaries call.2 with
  | obscure => exact .of_forall fun _ => trivial
  | modeled model =>
    filter_upwards [eventually_covers w.heuristics ∅, Stocked.eventually w.method.name,
      Stocked.eventually call, Stocked.eventually model] with W hW hname hcall hmodel
    have hfits := (meets_contract.2 hmodel).fits (contract_closed hW)
      (contract_admits hW hname hcall)
    exact ⟨hfits.generations, hfits.sinks, hfits.propagations⟩

/-- Every stock that is large enough makes what a walk starts from and what its body brings. -/
theorem eventually_walk (w : Walk) (body : Body) : ∀ᶠ W : Stock in atTop,
    w.Fits W.vocabulary body ∧
      ∀ i ∈ body.instructions, ∀ register ∈ i.2.dest?, W.Makes register := by
  have horigins := Stocked.eventually_all body.instructions fun i _ =>
    Stocked.eventually (⟨w.method.id, .instruction i.1⟩ : Origin)
  have hfields := Stocked.eventually_all body.instructions fun i _ =>
    eventually_instruction (V := vocabulary) (fun _ _ h => h) i.2
  have hcallees := Stocked.eventually_all body.calls fun call _ => eventually_callee w call
  have hregisters := Stocked.eventually_all body.instructions fun i _ =>
    Stocked.eventually_all i.2.dest?.toList fun register _ => Stocked.eventually register
  filter_upwards [eventually_covers w.heuristics ∅, Stocked.eventually w.entry, horigins, hfields,
    hcallees, hregisters] with W hW hentry horigins hfields hcallees hregisters
  exact ⟨⟨vocabulary_closed hW, (makes_state.1 hentry).1, horigins, hfields, hcallees⟩,
    fun i hi register hregister => hregisters i hi register (Option.mem_toList.2 hregister)⟩

theorem keeps (hw : w.Fits W.vocabulary body)
    (hregisters : ∀ i ∈ body.instructions, ∀ register ∈ i.2.dest?, W.Makes register) :
    w.Keeps body fun s => W.Makes s where
  apply i hi s hs := by
    obtain ⟨hfits, hbound⟩ := makes_state.1 hs
    refine makes_state.2 ⟨hw.apply hi hfits, fun register hregister => ?_⟩
    exact (Walk.isBound_apply hregister).elim (hbound register) (hregisters i hi register)
  join s t hs ht := by
    obtain ⟨hfits, hbound⟩ := makes_state.1 hs
    obtain ⟨hfits', hbound'⟩ := makes_state.1 ht
    refine makes_state.2 ⟨hfits.join hw.closed hfits', fun register hregister => ?_⟩
    exact (State.isBound_join.1 hregister).elim (hbound register) (hbound' register)

end Stock

end TaintFlow
