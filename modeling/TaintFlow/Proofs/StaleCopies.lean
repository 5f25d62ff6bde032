import TaintFlow.Proofs.Monotonicity
import TaintFlow.Proofs.ReadPaths

/-!
Copies of instructions. An unrolled loop has several copies of one instruction, and each allocates a
location of its own; in the loop they are one location, that every pass over the body overwrites.
Where the loop overwrites strongly what another copy still holds, that copy is stale
(`Walk.staleAfter`). Apart from stale copies the state of the loop covers that of the unrolled one
(`Covers`), and every instruction that reads no stale copy keeps it so (`covers_mark`).
-/

namespace TaintFlow

open Node (Sub)

/-! ### Whether a tree has all sources of another -/

namespace Node

variable {t : Node} {name : String} {child rest : Node} {depth : Nat}

def keeps (t : Node) : Node → Bool
  | bare fs => t.collect.entries.all fun e => e.1.isArgument || fs.contains e.1
  | field name child rest => keeps (t.step name 0) child && keeps (t.erase name) rest

theorem sub_bare_iff (ht : t.Ordered) {fs : FrameSet} :
    Sub t (bare fs) ↔ ∀ f, f.isArgument = false → t.collect.Has f → fs.Has f := by
  refine ⟨fun h f hf hmem => ?_, fun h names f hf hholds => ?_⟩
  · obtain ⟨names, hholds⟩ := (has_collect ht).1 hmem
    exact holds_bare.1 (h names f hf hholds)
  · exact holds_bare.2 (h f hf (has_collect_of_holds hholds))

theorem child?_erase_self (ht : t.Ordered) (name : String) : (t.erase name).child? name = none := by
  induction t with
  | bare fs => rfl
  | field n child rest _ ih =>
    obtain ⟨hlt, -, hrest⟩ := ht
    unfold erase
    split
    · next hn =>
      subst hn
      exact child?_eq_none fun hmem => LinearOrd.ne_of_lt (hlt name hmem) rfl
    · next hn =>
      simp only [child?, hn, if_false]
      exact ih hrest

theorem sub_field_iff (ht : t.Ordered) (hu : (field name child rest).Ordered) :
    Sub t (field name child rest) ↔ Sub (t.step name depth) child ∧ Sub (t.erase name) rest := by
  have hunlisted : rest.child? name = none :=
    child?_eq_none fun hmem => LinearOrd.ne_of_lt (hu.1 name hmem) rfl
  refine ⟨fun h => ⟨fun names f hf hholds => ?_, fun names f hf hholds => ?_⟩, ?_⟩
  · have hfield := h (name :: names) f hf ((holds_step hf).1 hholds)
    rwa [holds_field_cons, if_pos rfl] at hfield
  · cases names with
    | nil => exact h [] f hf (holds_erase_nil.1 hholds)
    | cons n names =>
      by_cases hn : n = name
      · -- the field is listed on neither side, so that only the frames of the nodes count
        subst hn
        simp only [Holds, child?_erase_self ht, frames_erase] at hholds
        simp only [Holds, hunlisted]
        exact h [] f hf hholds
      · have hfield := h (n :: names) f hf ((holds_erase_cons hn).1 hholds)
        rwa [holds_field_cons, if_neg hn] at hfield
  · rintro ⟨hchild, hrest⟩ names f hf hholds
    cases names with
    | nil => exact hrest [] f hf (holds_erase_nil.2 hholds)
    | cons n names =>
      rw [holds_field_cons]
      split
      · next hn =>
        subst hn
        exact hchild names f hf ((holds_step hf).2 hholds)
      · next hn => exact hrest (n :: names) f hf ((holds_erase_cons hn).2 hholds)

theorem keeps_iff {u : Node} (ht : t.Ordered) (hu : u.Ordered) : t.keeps u = true ↔ Sub t u := by
  induction u generalizing t with
  | bare fs =>
    rw [keeps, List.all_eq_true, sub_bare_iff ht]
    constructor
    · intro h f hf hmem
      obtain ⟨info, hinfo⟩ := FrameSet.has_iff_mem.1 hmem
      have hentry := h _ hinfo
      rw [hf, Bool.false_or] at hentry
      exact OrdMap.contains_iff.1 hentry
    · rintro h ⟨f, info⟩ he
      cases hf : f.isArgument with
      | true => rfl
      | false =>
        rw [Bool.false_or]
        exact OrdMap.contains_iff.2 (h f hf (FrameSet.has_iff_mem.2 ⟨info, he⟩))
  | field name child rest ihChild ihRest =>
    rw [keeps, Bool.and_eq_true, ihChild (ht.step name 0) hu.2.1,
      ihRest (ht.erase name) hu.2.2, sub_field_iff ht hu]

/-- What stands at the end of a chain of fields is what was put there. -/
theorem holds_modifyAt_const {u : Node} {f : Frame} {path names : List String} :
    (t.modifyAt depth (fun _ => u) path).Holds (path ++ names) f ↔ u.Holds names f := by
  induction path generalizing t with
  | nil => exact Iff.rfl
  | cons name path ih =>
    rw [modifyAt, List.cons_append, holds_put_cons, if_pos rfl]
    exact ih

end Node

instance (t u : TaintTree) : Decidable (Sub t.root u.root) :=
  decidable_of_iff _ (Node.keeps_iff t.ordered u.ordered)

/-- What is written lands, however it is written. -/
theorem TaintTree.Lands.holds_write {t value : TaintTree} {path : Path} {depth : Nat}
    {names : List String} {f : Frame} (h : value.Lands path depth names f)
    (hf : f.isArgument = false) (strong : Bool) :
    (t.write path value strong depth).root.Holds names f := by
  by_cases hstrong : strong ∧ path.normalize depth = path
  · obtain ⟨rest, rfl, hrest⟩ := h
    rw [write, if_pos hstrong]
    exact Node.holds_modifyAt_const.2 hrest
  · have hweak : t.write path value strong depth = t.write path value false depth := by
      simp only [write, if_neg hstrong, Bool.false_eq_true, false_and, if_false]
    rw [hweak]
    exact (TaintTree.holds_write_weak hf).2 (.inr h)

/-! ### Copies of one instruction -/

def Origin.renumber (φ : Nat → Nat) (o : Origin) : Origin :=
  { o with
    site :=
      match o.site with
      | .parameter index => .parameter index
      | .instruction position => .instruction (φ position) }

namespace Location

variable (φ : Nat → Nat)

def renumber (l : Location) : Location := { l with origin := l.origin.renumber φ }

theorem renumber_field (l : Location) (s : Segment) (depth : Nat) :
    (l.field s depth).renumber φ = (l.renumber φ).field s depth := by
  unfold field renumber
  split <;> rfl

theorem renumber_fieldPath (l : Location) (path : Path) (depth : Nat) :
    (l.fieldPath path depth).renumber φ = (l.renumber φ).fieldPath path depth := by
  induction path generalizing l with
  | nil => rfl
  | cons s path ih =>
    show ((l.field s depth).fieldPath path depth).renumber φ = _
    rw [ih, renumber_field]
    rfl

end Location

def Instruction.readRegisters : Instruction → List String
  | .fieldWrite _ _ src => [src]
  | .call _ args _ => args
  | _ => []

def Instruction.writtenRegisters : Instruction → List String
  | .fieldWrite base _ _ => [base]
  | _ => []

/-- A state of the walk of an unrolled body, and the origins that are stale in it. -/
structure Marked where
  state : State
  stale : List Origin

/-- The join at a merge of control flow. What is stale on either side is stale. -/
def Marked.join (u v : Marked) (depth : Nat) : Marked :=
  ⟨u.state.join v.state depth, u.stale ++ v.stale⟩

namespace Walk

variable (w : Walk) (φ : Nat → Nat)

/-- The copies that would lose a source if a write to some locations was strong and hit them, where
the locations are one location to the loop. The one that is strongly written itself is none. -/
def overwritten (s : State) (L : AliasSet) (path : Path) (value : TaintTree) : List Origin :=
  s.taint.keys.filter fun o => ∃ l ∈ L.toList,
    (∀ l' ∈ L.toList, l'.renumber φ = l.renumber φ) ∧ o.renumber φ = l.origin.renumber φ ∧
      ¬ (L.size = 1 ∧ o = l.origin) ∧
      ¬ Sub (s.treeOf o).root
        ((s.treeOf o).write (l.path ++ path) value true w.heuristics.maxFieldDepth).root

/-- The copies that hold a source which the one just allocated does not hold. -/
def outdated (s : State) (fresh : Origin) : List Origin :=
  s.taint.keys.filter fun o =>
    o.renumber φ = fresh.renumber φ ∧ ¬ Sub (s.treeOf o).root (s.treeOf fresh).root

/-- The stale origins after an instruction. A call sets the location of its result anew. -/
def staleAfter (position : Nat) (instruction : Instruction) (u : Marked) : List Origin :=
  match instruction with
  | .fieldWrite base field src =>
    u.stale ++ w.overwritten φ u.state (u.state.read base) [field]
      (u.state.readRegister src w.heuristics.maxFieldDepth)
  | .call _ _ (some _) =>
    let fresh := (Location.instruction w.method.id position).origin
    u.stale.filter (· ≠ fresh) ++ outdated φ (w.apply position instruction u.state).1 fresh
  | _ => u.stale

def mark (position : Nat) (instruction : Instruction) (u : Marked) : Marked :=
  ⟨(w.apply position instruction u.state).1, w.staleAfter φ position instruction u⟩

/-- An instruction reads no stale copy, writes through no register that holds nothing, and is no
call that merges fields of what it hands back. -/
def Current (position : Nat) (instruction : Instruction) (u : Marked) : Prop :=
  (∀ r ∈ instruction.readRegisters, ∀ l ∈ (u.state.read r).toList, l.origin ∉ u.stale) ∧
    (∀ r ∈ instruction.writtenRegisters, u.state.read r ≠ ∅) ∧
    w.mergesAt (.run position instruction u.state) = false

instance (position : Nat) (instruction : Instruction) (u : Marked) :
    Decidable (w.Current position instruction u) := inferInstanceAs (Decidable (_ ∧ _ ∧ _))

end Walk

/-! ### What the loop covers -/

/-- Whatever an unrolled body lets a register hold, the loop does too, and whatever source an origin
holds that is not stale, the location of its instruction in the loop holds. -/
structure Covers (φ : Nat → Nat) (u : Marked) (l : State) : Prop where
  subset : ∀ register, ∀ a ∈ u.state.read register, a.renumber φ ∈ l.read register
  sub : ∀ o ∉ u.stale, Sub (u.state.treeOf o).root (l.treeOf (o.renumber φ)).root

namespace Covers

variable {φ : Nat → Nat} {u v : Marked} {l t : State} {L L' : AliasSet} {path : Path} {depth : Nat}
  {register : String}

theorem below (h : Covers φ u l) (hbelow : State.Below l t) : Covers φ u t where
  subset r a ha := hbelow.subset r _ (h.subset r a ha)
  sub o ho := (h.sub o ho).trans (hbelow.sub _)

theorem join (h : Covers φ u l) (h' : Covers φ v l) (depth : Nat) :
    Covers φ (u.join v depth) l where
  subset r a ha := (State.mem_read_join.1 ha).elim (h.subset r a) (h'.subset r a)
  sub o ho names f hf hholds := by
    obtain ⟨hu, hv⟩ := not_or.1 (mt List.mem_append.2 ho)
    exact ((State.holds_treeOf_join hf).1 hholds).elim (h.sub o hu names f hf)
      (h'.sub o hv names f hf)

theorem bind (h : Covers φ u l) (hL : ∀ a ∈ L, a.renumber φ ∈ L') (register : String) :
    Covers φ ⟨u.state.bind register L, u.stale⟩ (l.bind register L') where
  subset r a ha := by
    rw [State.read_bind] at ha ⊢
    split at ha
    · next hr =>
      rw [if_pos hr]
      exact hL a ha
    · next hr =>
      rw [if_neg hr]
      exact h.subset r a ha
  sub := h.sub

/-- What is read through a register without stale copies is read in the loop. -/
theorem readAll (h : Covers φ u l) (hcurrent : ∀ a ∈ u.state.read register, a.origin ∉ u.stale)
    (path : Path) :
    Sub (u.state.readAll (u.state.read register) path depth).root
      (l.readAll (l.read register) path depth).root := by
  intro names f hf hholds
  obtain ⟨a, ha, hread⟩ := (State.holds_readAll hf).1 hholds
  refine (State.holds_readAll hf).2 ⟨a.renumber φ, h.subset register a ha, ?_⟩
  rw [State.holds_readAt hf] at hread ⊢
  have htree := h.sub a.origin (hcurrent a ha)
  exact htree.subtree (u.state.treeOf a.origin).ordered _ names f hf hread

end Covers

/-! ### Writes -/

theorem AliasSet.toList_of_size {L : AliasSet} {a : Location} (h : L.size = 1) (ha : a ∈ L) :
    L.toList = [a] := by
  have hlength : L.toList.length = 1 := (List.length_map _).trans h
  obtain ⟨b, hb⟩ := List.length_eq_one_iff.1 hlength
  have hmem := OrdSet.mem_toList.2 ha
  rw [hb, List.mem_singleton] at hmem
  rw [hb, hmem]

namespace State

variable {s : State} {L : AliasSet} {a : Location} {path : Path} {value : TaintTree}
  {strong : Bool} {depth : Nat} {o : Origin}

/-- A strong write to a single location. -/
theorem writeAll_of_size (h : L.size = 1) (ha : a ∈ L) :
    s.writeAll L path value true depth = s.writeAt a path value true depth := by
  rw [writeAll, AliasSet.toList_of_size h ha, h]
  rfl

theorem treeOf_writeAll_of_ne (h : ∀ a ∈ L, o ≠ a.origin) :
    (s.writeAll L path value strong depth).treeOf o = s.treeOf o := by
  refine List.foldlRecOn (motive := fun t : State => t.treeOf o = s.treeOf o) _ _ rfl
    fun t ht a ha => ?_
  rw [treeOf_writeAt, if_neg (h a (OrdSet.mem_toList.1 ha)), ht]

theorem sub_of_not_mem_keys (h : o ∉ s.taint.keys) (t : Node) : Sub (s.treeOf o).root t := by
  have hnone : s.tree? o = none :=
    Option.eq_none_iff_forall_ne_some.2 fun tree htree => h (OrdMap.mem_keys.2 ⟨tree, htree⟩)
  rw [treeOf, hnone]
  exact fun _ _ _ hholds => absurd hholds TaintTree.not_holds_empty

theorem mem_keys_of_not_sub {t : Node} (h : ¬ Sub (s.treeOf o).root t) : o ∈ s.taint.keys := by
  by_contra hkey
  exact h (sub_of_not_mem_keys hkey t)

end State

namespace Walk

variable {w : Walk} {φ : Nat → Nat} {s : State} {L : AliasSet} {a : Location} {path : Path}
  {value : TaintTree} {o fresh : Origin}

theorem sub_of_not_overwritten (ho : o ∉ w.overwritten φ s L path value) (ha : a ∈ L)
    (hone : ∀ b ∈ L, b.renumber φ = a.renumber φ) (hcopy : o.renumber φ = a.origin.renumber φ)
    (hother : ¬ (L.size = 1 ∧ o = a.origin)) :
    Sub (s.treeOf o).root
      ((s.treeOf o).write (a.path ++ path) value true w.heuristics.maxFieldDepth).root := by
  by_contra hsub
  refine ho (List.mem_filter.2
    ⟨State.mem_keys_of_not_sub hsub, decide_eq_true ⟨a, OrdSet.mem_toList.2 ha, ?_⟩⟩)
  exact ⟨fun b hb => hone b (OrdSet.mem_toList.1 hb), hcopy, hother, hsub⟩

theorem sub_of_not_outdated (ho : o ∉ outdated φ s fresh)
    (hcopy : o.renumber φ = fresh.renumber φ) :
    Sub (s.treeOf o).root (s.treeOf fresh).root := by
  by_contra hsub
  exact ho (List.mem_filter.2
    ⟨State.mem_keys_of_not_sub hsub, decide_eq_true ⟨hcopy, hsub⟩⟩)

/-- A strong write of the loop leaves all that the unrolled body has, but for stale copies: the copy
that the unrolled body writes is written the same way, and any other keeps what it held. -/
theorem sub_writeAll_strong {u : Marked} {l : State} (h : Covers φ u l) (ha : a ∈ L)
    (hone : ∀ b ∈ L, b.renumber φ = a.renumber φ) {value' : TaintTree}
    (hvalue : Sub value.root value'.root) (hstale : o ∉ u.stale)
    (hover : o ∉ w.overwritten φ u.state L path value) :
    Sub ((u.state.writeAll L path value true w.heuristics.maxFieldDepth).treeOf o).root
      ((l.writeAt (a.renumber φ) path value' true w.heuristics.maxFieldDepth).treeOf
        (o.renumber φ)).root := by
  rw [State.treeOf_writeAt]
  by_cases hcopy : o.renumber φ = (a.renumber φ).origin
  · rw [if_pos hcopy]
    have hwritten : Sub
        ((u.state.treeOf o).write (a.path ++ path) value true w.heuristics.maxFieldDepth).root
        ((l.treeOf (o.renumber φ)).write (a.path ++ path) value' true
          w.heuristics.maxFieldDepth).root :=
      TaintTree.sub_write (h.sub o hstale) hvalue true
    by_cases hown : L.size = 1 ∧ o = a.origin
    · rw [State.writeAll_of_size hown.1 ha, State.treeOf_writeAt, if_pos hown.2]
      exact hwritten
    · -- the unrolled body may add to the copy, and the strong write removes nothing of it
      have hkept := sub_of_not_overwritten hover ha hone hcopy hown
      intro names f hf hholds
      rcases (State.holds_writeAll_weak hf).1 (State.sub_writeAll_weak true names f hf hholds) with
        hheld | ⟨b, hb, -, hlands⟩
      · exact hwritten names f hf (hkept names f hf hheld)
      · have hpath : (b.renumber φ).path = (a.renumber φ).path := by rw [hone b hb]
        rw [show b.path = a.path from hpath] at hlands
        exact (hlands.mono hvalue hf).holds_write hf true
  · rw [if_neg hcopy, State.treeOf_writeAll_of_ne]
    · exact h.sub o hstale
    · rintro b hb rfl
      exact hcopy (congrArg Location.origin (hone b hb))

/-- The loop covers a write through a register that holds something. -/
theorem covers_writeAll {u : Marked} {l : State} (h : Covers φ u l) {L' : AliasSet}
    (hL : ∀ a ∈ L, a.renumber φ ∈ L') (hne : L ≠ ∅) {value' : TaintTree}
    (hvalue : Sub value.root value'.root) :
    Covers φ
      ⟨u.state.writeAll L path value true w.heuristics.maxFieldDepth,
        u.stale ++ w.overwritten φ u.state L path value⟩
      (l.writeAll L' path value' true w.heuristics.maxFieldDepth) where
  subset r a ha := by
    rw [State.read_writeAll] at ha ⊢
    exact h.subset r a ha
  sub o ho := by
    obtain ⟨hstale, hover⟩ := not_or.1 (mt List.mem_append.2 ho)
    by_cases hsize : L'.size = 1
    · obtain ⟨a, ha⟩ : ∃ a, a ∈ L := by
        by_contra hnone
        exact hne (AliasSet.eq_empty_iff.2 fun a ha => hnone ⟨a, ha⟩)
      -- the one location in the loop is that of all that the register holds
      have hone (b : Location) (hb : b ∈ L) : b.renumber φ = a.renumber φ := by
        have hmem := OrdSet.mem_toList.2 (hL b hb)
        rwa [AliasSet.toList_of_size hsize (hL a ha), List.mem_singleton] at hmem
      rw [State.writeAll_of_size hsize (hL a ha)]
      exact sub_writeAll_strong h ha hone hvalue hstale hover
    · have hweak : l.writeAll L' path value' true w.heuristics.maxFieldDepth =
          l.writeAll L' path value' false w.heuristics.maxFieldDepth := by
        unfold State.writeAll
        simp only [beq_eq_false_iff_ne.2 hsize, Bool.and_false]
      rw [hweak]
      exact State.sub_writeAll_of_weak (h.sub o hstale)
        (fun b hb ho => ⟨b.renumber φ, hL b hb, by rw [← ho]; rfl, rfl⟩) hvalue true

end Walk

/-! ### Calls -/

structure Call.CopyOf (φ : Nat → Nat) (c c' : Call) : Prop where
  fresh : c.fresh.renumber φ = c'.fresh
  arguments : ∀ root L, c.argument? root = some L → ∃ L', c'.argument? root = some L' ∧
    ∀ a ∈ L, a.renumber φ ∈ L'

namespace Covers

variable {h : Heuristics} {φ : Nat → Nat} {c c' : Call} {u : Marked} {l : State} {model : Model}

/-- What is handed back at arguments is added on both sides. -/
theorem writeArguments (hu : Covers φ u l) (hc : c.CopyOf φ c') {o o' : Outputs}
    (ho : ∀ root, Sub (o.getD root ∅).root (o'.getD root ∅).root) :
    Covers φ
      ⟨o.entries.foldl (fun s e => c.writeArgument h s e.1 e.2) u.state, u.stale⟩
      (o'.entries.foldl (fun s e => c'.writeArgument h s e.1 e.2) l) where
  subset r a ha := by
    rw [Call.read_writeArguments] at ha ⊢
    exact hu.subset r a ha
  sub origin horigin names f hf hholds := by
    rw [Call.holds_writeArguments hf] at hholds ⊢
    refine hholds.imp (hu.sub origin horigin names f hf) ?_
    rintro ⟨root, L, hL, a, ha, rfl, hlands⟩
    obtain ⟨L', hL', hmem⟩ := hc.arguments root L hL
    exact ⟨root, L', hL', a.renumber φ, hmem a ha, rfl, hlands.mono (ho root) hf⟩

theorem mem_shared (hc : c.CopyOf φ c') {a : Location} (ha : a ∈ c.shared h model) :
    a.renumber φ ∈ c'.shared h model := by
  obtain ⟨p, hp, haliasing, L, hL, own, hown, rfl⟩ := Call.mem_shared.1 ha
  obtain ⟨L', hL', hmem⟩ := hc.arguments p.input.root L hL
  refine Call.mem_shared.2 ⟨p, hp, haliasing, L', hL', own.renumber φ, hmem own hown, ?_⟩
  exact (Location.renumber_fieldPath φ own _ _).symm

/-- The result of a call is a new copy, and those before it are stale unless it holds all that they
hold. -/
theorem bindResult (hu : Covers φ u l) (hc : c.CopyOf φ c') {returned returned' : TaintTree}
    (hreturned : Sub returned.root returned'.root) {shared shared' : AliasSet}
    (hshared : ∀ a ∈ shared, a.renumber φ ∈ shared') (register : String) :
    Covers φ
      ⟨c.bindResult h u.state register returned shared,
        u.stale.filter (· ≠ c.fresh.origin) ++
          Walk.outdated φ (c.bindResult h u.state register returned shared) c.fresh.origin⟩
      (c'.bindResult h l register returned' shared') where
  subset r a ha := by
    rw [Call.bindResult, State.read_bind] at ha ⊢
    split at ha
    · next hr =>
      rw [if_pos hr]
      rcases OrdSet.mem_insert.1 ha with rfl | ha
      · exact OrdSet.mem_insert.2 (.inl hc.fresh)
      · exact OrdSet.mem_insert.2 (.inr (hshared a ha))
    · next hr =>
      rw [if_neg hr]
      exact hu.subset r a ha
  sub o ho := by
    obtain ⟨hstale, hcurrent⟩ := not_or.1 (mt List.mem_append.2 ho)
    have hfresh : c.fresh.origin.renumber φ = c'.fresh.origin := congrArg Location.origin hc.fresh
    have hlimit : Sub (returned.limit h.maxFieldDepth).root
        (returned'.limit h.maxFieldDepth).root :=
      hreturned.limit returned.ordered returned'.ordered
    rw [Call.treeOf_bindResult (o.renumber φ)]
    by_cases hcopy : o.renumber φ = c'.fresh.origin
    · -- the copies of the result that are not outdated hold no more than the result
      rw [if_pos hcopy]
      refine (Walk.sub_of_not_outdated hcurrent (hcopy.trans hfresh.symm)).trans ?_
      rw [Call.treeOf_bindResult, if_pos rfl]
      exact hlimit
    · have hother : o ≠ c.fresh.origin := fun heq => hcopy (heq ▸ hfresh)
      rw [if_neg hcopy, Call.treeOf_bindResult, if_neg hother]
      exact hu.sub o fun hmem => hstale (List.mem_filter.2 ⟨hmem, decide_eq_true hother⟩)

end Covers

namespace Walk

variable {w : Walk} {φ : Nat → Nat} {u : Marked} {l : State} {position : Nat} {callee : String}
  {args : List String}

theorem argument?_callAt {s : State} {root : Root} {L : AliasSet}
    (hL : (w.callAt position callee args s).argument? root = some L) :
    ∃ r ∈ args, L = s.read r ∧
      ∀ position' t, (w.callAt position' callee args t).argument? root = some (t.read r) := by
  cases root with
  | result => cases hL
  | argument index =>
    have hmap : (args.map s.read)[index]? = some L := hL
    rw [List.getElem?_map] at hmap
    obtain ⟨r, hr, rfl⟩ := Option.map_eq_some_iff.1 hmap
    refine ⟨r, List.mem_of_getElem? hr, rfl, fun position' t => ?_⟩
    show (args.map t.read)[index]? = _
    rw [List.getElem?_map, hr]
    rfl

theorem callAt_copyOf (hu : Covers φ u l) (position : Nat) (callee : String) (args : List String) :
    (w.callAt position callee args u.state).CopyOf φ (w.callAt (φ position) callee args l) where
  fresh := rfl
  arguments root L hL := by
    obtain ⟨r, -, rfl, hL'⟩ := argument?_callAt hL
    exact ⟨l.read r, hL' _ l, hu.subset r⟩

/-- A call whose arguments hold no stale copy reads no more than the call of the loop. -/
theorem callAt_reads (hu : Covers φ u l)
    (hcurrent : ∀ r ∈ args, ∀ a ∈ (u.state.read r).toList, a.origin ∉ u.stale) :
    Call.ReadsWithin w.heuristics (w.callAt position callee args u.state) u.state
      (w.callAt (φ position) callee args l) l := by
  intro root L hL
  obtain ⟨r, hr, rfl, hL'⟩ := argument?_callAt hL
  exact ⟨l.read r, hL' _ l, hu.readAll fun a ha => hcurrent r hr a (OrdSet.mem_toList.2 ha)⟩

/-- The loop covers a call that merges nothing. -/
theorem covers_call (hu : Covers φ u l) {result : Option String}
    (h : w.Current position (.call callee args result) u) :
    Covers φ (w.mark φ position (.call callee args result) u)
      (w.apply (φ position) (.call callee args result) l).1 := by
  obtain ⟨hcurrent, -, hmerges⟩ := h
  let c := w.callAt position callee args u.state
  let c' := w.callAt (φ position) callee args l
  have hcopy : c.CopyOf φ c' := callAt_copyOf hu position callee args
  have hreads : Call.ReadsWithin w.heuristics c u.state c' l := callAt_reads hu hcurrent
  change c.mergesFor w.heuristics (w.summaries callee) u.state = false at hmerges
  cases result with
  | none =>
    show Covers φ ⟨(c.run w.heuristics (w.summaries callee) none u.state).1, u.stale⟩
      (c'.run w.heuristics (w.summaries callee) none l).1
    generalize w.summaries callee = known at hmerges ⊢
    cases known with
    | obscure => exact hu
    | modeled model =>
      exact hu.writeArguments hcopy
        (Call.sub_outputs_of_not_merges hreads (Model.le_refl model) hmerges)
  | some register =>
    show Covers φ ⟨(c.run w.heuristics (w.summaries callee) (some register) u.state).1,
        u.stale.filter (· ≠ c.fresh.origin) ++
          outdated φ (c.run w.heuristics (w.summaries callee) (some register) u.state).1
            c.fresh.origin⟩
      (c'.run w.heuristics (w.summaries callee) (some register) l).1
    generalize w.summaries callee = known at hmerges ⊢
    cases known with
    | obscure =>
      exact hu.bindResult hcopy (Call.sub_obscured hreads)
        (fun a ha => absurd ha (OrdSet.not_mem_empty a)) register
    | modeled model =>
      have houtputs := Call.sub_outputs_of_not_merges hreads (Model.le_refl model) hmerges
      exact (hu.writeArguments hcopy houtputs).bindResult hcopy (houtputs .result)
        (fun a ha => Covers.mem_shared hcopy ha) register

/-- An instruction that reads no stale copy keeps what the loop covers. -/
theorem covers_mark (hu : Covers φ u l) {instruction : Instruction}
    (h : w.Current position instruction u) :
    Covers φ (w.mark φ position instruction u) (w.apply (φ position) instruction l).1 := by
  cases instruction with
  | fresh dest =>
    refine hu.bind (fun a ha => ?_) dest
    obtain rfl := List.mem_singleton.1 (OrdSet.mem_ofList.1 ha)
    exact OrdSet.mem_ofList.2 (List.mem_singleton.2 rfl)
  | move dest src => exact hu.bind (hu.subset src) dest
  | fieldRead dest base field =>
    refine hu.bind (fun a ha => ?_) dest
    obtain ⟨own, hown, rfl⟩ := OrdSet.mem_map.1 ha
    rw [Location.renumber_field]
    exact OrdSet.mem_map.2 ⟨own.renumber φ, hu.subset base own hown, rfl⟩
  | fieldWrite base field src =>
    obtain ⟨hcurrent, hbound, -⟩ := h
    refine covers_writeAll hu (hu.subset base) (hbound base List.mem_cons_self) ?_
    exact hu.readAll (fun a ha => hcurrent src List.mem_cons_self a (OrdSet.mem_toList.2 ha)) []
  | call callee args result => exact covers_call hu h

/-- What is observed at a call that reads no stale copy is observed at the call of the loop. -/
theorem observed_covered (hu : Covers φ u l) {instruction : Instruction}
    (h : w.Current position instruction u) {o : Observation}
    (ho : o ∈ (w.apply position instruction u.state).2) {f : Frame} (hf : o.sources.Has f) :
    ∃ o' ∈ (w.apply (φ position) instruction l).2, o'.callee = o.callee ∧ o'.port = o.port ∧
      o'.sink = o.sink ∧ o'.sources.Has f := by
  obtain ⟨callee, args, result, rfl, hcallee, -⟩ := isCall_of_mem_apply ho
  obtain ⟨o', ho', hkey, hsource⟩ :=
    Call.observed_of_reads (callAt_reads hu h.1) (Callee.le_refl _) ho hf
  have hcallee' : o'.callee = o.callee := (Call.of_mem_run ho').2.trans hcallee.symm
  obtain ⟨-, hport, hsink⟩ : o'.site = _ ∧ o'.port = o.port ∧ o'.sink = o.sink := by
    simpa [Observation.key] using hkey
  exact ⟨o', ho', hcallee', hport, hsink, hsource⟩

end Walk

end TaintFlow
