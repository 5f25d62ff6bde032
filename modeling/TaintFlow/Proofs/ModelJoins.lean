import TaintFlow.Proofs.PointwiseJoins
import TaintFlow.Proofs.Programs

/-!
Models as a semilattice. The join of maps is commutative, associative or idempotent wherever the
join of their values is, and so the laws of frame sets are those of frames by port, and of models. A
fold of joins therefore depends on which models are joined and not on their order: it has the frames
that one of them has, and reports of each the features of all and the least trace
(`FrameInfo.MergedFrom`). A join that brings nothing new is no change, where every port that is
listed holds a frame; all ways to build a model see to that (`Model.Built`).
-/

namespace TaintFlow

/-! ### Maps and sets -/

namespace OrdMap

variable {κ ν : Type} [LinearOrd κ] (unite : ν → ν → ν)

instance [Std.Commutative unite] : Std.Commutative (union unite : OrdMap κ ν → _ → _) where
  comm m m' := by
    classical
    ext k : 1
    rw [get?_union, get?_union]
    exact Std.Commutative.comm _ _

instance [Std.Associative unite] : Std.Associative (union unite : OrdMap κ ν → _ → _) where
  assoc m m' m'' := by
    classical
    ext k : 1
    simp only [get?_union]
    exact Std.Associative.assoc _ _ _

instance [Std.IdempotentOp unite] : Std.IdempotentOp (union unite : OrdMap κ ν → _ → _) where
  idempotent m := by
    classical
    ext k : 1
    rw [get?_union]
    exact Std.IdempotentOp.idempotent _

instance : Std.LawfulIdentity (union unite : OrdMap κ ν → _ → _) ∅ where
  left_id m := by
    classical
    ext k : 1
    rw [get?_union, get?_empty, Option.merge_none_left]
  right_id _ := rfl

end OrdMap

namespace OrdSet

variable {α : Type} [LinearOrd α]

instance : Std.Commutative (Union.union : OrdSet α → _ → _) where
  comm s t := ext fun a => by rw [mem_union, mem_union, or_comm]

instance : Std.Associative (Union.union : OrdSet α → _ → _) where
  assoc s t u := ext fun a => by simp only [mem_union, or_assoc]

instance : Std.IdempotentOp (Union.union : OrdSet α → _ → _) where
  idempotent _ := union_eq_left fun _ => id

instance : Std.LawfulIdentity (Union.union : OrdSet α → _ → _) ∅ where
  left_id s := ext fun a => by rw [mem_union, or_iff_right (not_mem_empty a)]
  right_id _ := rfl

end OrdSet

/-! ### Infos -/

namespace FrameInfo

structure MergedFrom (info : FrameInfo) (infos : FrameInfo → Prop) : Prop where
  features : ∀ feature, feature ∈ info.features ↔ ∃ own, infos own ∧ feature ∈ own.features
  trace : ∃ own, infos own ∧ own.trace = info.trace
  least : ∀ own, infos own → info.trace.length < own.trace.length ∨
    info.trace.length = own.trace.length ∧ (compare info.trace own.trace).isLE = true

/-- An info that passes a test if and only if one of the others does is merged from them. -/
theorem mergedFrom_of_passes {info : FrameInfo} {infos : FrameInfo → Prop}
    (h : ∀ q : Test, q.passes info ↔ ∃ own, infos own ∧ q.passes own) : info.MergedFrom infos := by
  have hleast : ∀ own, infos own → Trace.before own.trace info.trace = false := fun own hown =>
    (h (.notAfter own.trace)).2 ⟨own, hown, Trace.before_self own.trace⟩
  refine ⟨fun feature => h (.reports feature), ?_, fun own hown =>
    Trace.before_eq_false_iff_length.1 (hleast own hown)⟩
  obtain ⟨own, hown, hbefore⟩ := (h (.notAfter info.trace)).1 (Trace.before_self info.trace)
  exact ⟨own, hown, Trace.eq_of_before (hleast own hown) hbefore⟩

end FrameInfo

/-! ### Frames by port -/

namespace FrameSet

instance : Std.Commutative join := ⟨join_comm⟩

instance : Std.Associative join := ⟨join_assoc⟩

instance : Std.IdempotentOp join := ⟨join_self⟩

theorem add_eq_join (s : FrameSet) (f : Frame) (info : FrameInfo) :
    s.add f info = s.join ((∅ : FrameSet).add f info) := by
  refine OrdMap.ext fun f' => ?_
  have hempty : OrdMap.get? (∅ : FrameSet) f' = none := rfl
  rw [get?_add, join, OrdMap.get?_union, get?_add, hempty]
  by_cases hf : f' = f
  · subst hf
    rw [hempty]
    cases s.get? f' <;> simp
  · simp [hf]

end FrameSet

namespace PortFrames

instance : Std.Commutative join := inferInstanceAs (Std.Commutative (OrdMap.union FrameSet.join))

instance : Std.Associative join := inferInstanceAs (Std.Associative (OrdMap.union FrameSet.join))

instance : Std.IdempotentOp join := inferInstanceAs (Std.IdempotentOp (OrdMap.union FrameSet.join))

instance : Std.LawfulIdentity join ∅ :=
  inferInstanceAs (Std.LawfulIdentity (OrdMap.union FrameSet.join) ∅)

theorem add_eq_join (m : PortFrames) (port : Port) (f : Frame) (info : FrameInfo) :
    m.add port f info = m.join ((∅ : PortFrames).add port f info) := by
  refine OrdMap.ext fun port' => ?_
  have hempty : OrdMap.get? (∅ : PortFrames) port' = none := rfl
  rw [get?_add, join, OrdMap.get?_union, get?_add, hempty]
  by_cases hport : port' = port
  · subst hport
    rw [if_pos rfl, if_pos rfl, OrdMap.getD, OrdMap.getD, hempty]
    cases m.get? port' with
    | none => rfl
    | some fs => exact congrArg some (FrameSet.add_eq_join fs f info)
  · simp [hport]

theorem Occupied.join {m n : PortFrames} (hm : m.Occupied) (hn : n.Occupied) :
    (m.join n).Occupied :=
  OrdMap.Each.union hm hn fun _ fs fs' h _ =>
    FrameSet.isEmpty_of_le (FrameSet.le_join_left fs fs') h

end PortFrames

/-! ### Models -/

namespace Model

instance : Std.Commutative join where
  comm m n := by
    simp only [join]
    congr 1 <;> exact Std.Commutative.comm _ _

instance : Std.Associative join where
  assoc m n o := by
    simp only [join]
    congr 1 <;> exact Std.Associative.assoc _ _ _

instance : Std.IdempotentOp join where
  idempotent m := by
    obtain ⟨generations, parameterSources, sinks, propagations, effectSources⟩ := m
    simp only [join]
    congr 1 <;> exact Std.IdempotentOp.idempotent _

instance : Std.LawfulIdentity join ∅ where
  left_id m := by
    obtain ⟨generations, parameterSources, sinks, propagations, effectSources⟩ := m
    simp only [join]
    congr 1 <;> exact Std.LawfulLeftIdentity.left_id _
  right_id _ := rfl

theorem empty_join (m : Model) : (∅ : Model).join m = m := Std.LawfulLeftIdentity.left_id m

theorem join_comm (m n : Model) : m.join n = n.join m := Std.Commutative.comm m n

theorem join_assoc (m n o : Model) : (m.join n).join o = m.join (n.join o) :=
  Std.Associative.assoc m n o

instance : RightCommutative join where
  right_comm o m n := by rw [join_assoc, join_comm m, ← join_assoc]

/-- Where every port that is listed holds a frame, the join brings something new if and only if it
changes the model. -/
theorem le_eq_false_iff {m n : Model} (hn : n.Occupied) : n.le m = false ↔ m.join n ≠ m := by
  rw [← Bool.not_eq_true, not_iff_not]
  exact ⟨join_eq_left hn, fun h => h ▸ le_join_right m n⟩

-- a port without frames is listed by a join that brings nothing new
example : ∃ n : Model, n.le ∅ = true ∧ (∅ : Model).join n ≠ ∅ :=
  ⟨{ (∅ : Model) with sinks := (∅ : PortFrames).insert .result ∅ }, by decide, by decide⟩

/-- The models that can be built: declared ones, and what additions and joins make of them. -/
inductive Built : Model → Prop where
  | empty : Built ∅
  | declared {d : ModelDeclaration} {kinds kinds' : KindTable} {m : Model}
    (h : (ofDeclaration d).runOn kinds = (.ok m, kinds')) : Built m
  | addGeneration {m : Model} (h : Built m) (port : Port) (f : Frame) (info : FrameInfo) :
    Built (m.addGeneration port f info)
  | addParameterSource {m : Model} (h : Built m) (port : Port) (f : Frame) (info : FrameInfo) :
    Built (m.addParameterSource port f info)
  | addSink {m : Model} (h : Built m) (port : Port) (f : Frame) (info : FrameInfo) :
    Built (m.addSink port f info)
  | addPropagation {m : Model} (h : Built m) (p : Propagation) : Built (m.addPropagation p)
  | addEffectSource {m : Model} (h : Built m) (kind : KindId) : Built (m.addEffectSource kind)
  | join {m n : Model} (h : Built m) (h' : Built n) : Built (m.join n)

/-- A declaration leads to a model whose listed ports hold frames. -/
theorem yields_ofDeclaration (d : ModelDeclaration) : (ofDeclaration d).Yields Occupied := by
  unfold ofDeclaration
  refine Interning.yields_bind (Interning.yields_true _) fun generations _ => ?_
  refine Interning.yields_bind (Interning.yields_true _) fun parameterSources _ => ?_
  refine Interning.yields_bind (Interning.yields_true _) fun sinks _ => ?_
  refine Interning.yields_bind (Interning.yields_true _) fun propagations _ => ?_
  refine Interning.yields_bind (Interning.yields_true _) fun effectSources _ => ?_
  exact Interning.yields_pure
    ⟨occupied_ofFrames generations, occupied_ofFrames parameterSources, occupied_ofFrames sinks⟩

/-- Every way to build a model lists a port with a frame at it. -/
theorem Built.occupied {m : Model} (h : m.Built) : m.Occupied := by
  induction h with
  | empty =>
    exact ⟨PortFrames.occupied_empty, PortFrames.occupied_empty, PortFrames.occupied_empty⟩
  | declared h => exact yields_ofDeclaration _ _ _ _ h
  | addGeneration _ port f info ih =>
    exact { ih with generations := ih.generations.add port f info }
  | addParameterSource _ port f info ih =>
    exact { ih with parameterSources := ih.parameterSources.add port f info }
  | addSink _ port f info ih => exact ih.addSink port f info
  | addPropagation _ _ ih => exact ⟨ih.generations, ih.parameterSources, ih.sinks⟩
  | addEffectSource _ _ ih => exact ⟨ih.generations, ih.parameterSources, ih.sinks⟩
  | join _ _ ih ih' =>
    exact ⟨ih.generations.join ih'.generations, ih.parameterSources.join ih'.parameterSources,
      ih.sinks.join ih'.sinks⟩

/-! #### Folds of joins -/

inductive Part where
  | generations
  | parameterSources
  | sinks

def frames (m : Model) : Part → PortFrames
  | .generations => m.generations
  | .parameterSources => m.parameterSources
  | .sinks => m.sinks

def framesAt (m : Model) (part : Part) (port : Port) : FrameSet := (m.frames part).getD port ∅

def joinAll (ms : List Model) : Model := ms.foldl join ∅

theorem joinAll_cons (m : Model) (ms : List Model) : joinAll (m :: ms) = m.join (joinAll ms) := by
  rw [joinAll, List.foldl_cons, empty_join]
  exact foldl_eq_op _ _ m ms

variable {ms ms' : List Model} {part : Part} {port : Port} {f : Frame} {q : FrameInfo.Test}

theorem framesAt_join (m n : Model) (part : Part) (port : Port) :
    (m.join n).framesAt part port = (m.framesAt part port).join (n.framesAt part port) := by
  cases part <;> exact PortFrames.getD_join _ _ port

theorem framesAt_empty (part : Part) (port : Port) : (∅ : Model).framesAt part port = ∅ := by
  cases part <;> rfl

theorem passes_joinAll : ((joinAll ms).framesAt part port).Passes q f ↔
    ∃ m ∈ ms, (m.framesAt part port).Passes q f := by
  have hstep (n m : Model) : ((n.join m).framesAt part port).Passes q f ↔
      (n.framesAt part port).Passes q f ∨ (m.framesAt part port).Passes q f := by
    rw [framesAt_join, FrameSet.passes_join]
  rw [joinAll, foldl_iff (P := fun n : Model => (n.framesAt part port).Passes q f) hstep,
    framesAt_empty, or_iff_right FrameSet.not_passes_empty]

theorem get?_joinAll_eq_none_iff : ((joinAll ms).framesAt part port).get? f = none ↔
    ∀ m ∈ ms, (m.framesAt part port).get? f = none := by
  have hpasses (fs : FrameSet) : fs.get? f = none ↔ ¬ fs.Passes .anything f := by
    rw [FrameSet.passes_anything, FrameSet.Has, ← Option.isSome_iff_exists,
      Option.not_isSome_iff_eq_none]
  simp only [hpasses, passes_joinAll, not_exists, not_and]

/-- What a fold of joins reports of a frame is merged from what its members do. -/
theorem mergedFrom_joinAll {info : FrameInfo}
    (h : ((joinAll ms).framesAt part port).get? f = some info) :
    info.MergedFrom fun own => ∃ m ∈ ms, (m.framesAt part port).get? f = some own := by
  refine FrameInfo.mergedFrom_of_passes fun q => ?_
  rw [← FrameSet.passes_iff_of_get? h, passes_joinAll]
  constructor
  · rintro ⟨m, hm, own, hown, hq⟩
    exact ⟨own, ⟨m, hm, hown⟩, hq⟩
  · rintro ⟨own, ⟨m, hm, hown⟩, hq⟩
    exact ⟨m, hm, own, hown, hq⟩

/-- Models form a semilattice under their join, with the empty model as its least element. Whether a
join brings something new tells exactly whether it changes the model, for all models that can be
built. A fold of joins does not depend on the order, and its frames are those of its members. What
it reports of a frame are the features that any of them reports and the least of their traces, by
length and then element by element. -/
theorem join_semilattice :
    (∀ m n : Model, m.join n = n.join m) ∧
      (∀ m n o : Model, (m.join n).join o = m.join (n.join o)) ∧
      (∀ m : Model, m.join m = m) ∧
      (∀ m : Model, m.join ∅ = m ∧ (∅ : Model).join m = m) ∧
      (∀ m n : Model, n.Built → (n.le m = false ↔ m.join n ≠ m)) ∧
      (∀ ms ms' : List Model, ms.Perm ms' → joinAll ms = joinAll ms') ∧
      ∀ (ms : List Model) (part : Part) (port : Port) (f : Frame),
        (((joinAll ms).framesAt part port).get? f = none ↔
          ∀ m ∈ ms, (m.framesAt part port).get? f = none) ∧
        ∀ info, ((joinAll ms).framesAt part port).get? f = some info →
          info.MergedFrom fun own => ∃ m ∈ ms, (m.framesAt part port).get? f = some own := by
  refine ⟨join_comm, join_assoc, Std.IdempotentOp.idempotent, fun m => ⟨?_, ?_⟩,
    fun m n hn => le_eq_false_iff hn.occupied, fun ms ms' h => h.foldl_eq ∅,
    fun ms part port f => ⟨get?_joinAll_eq_none_iff, fun info h => mergedFrom_joinAll h⟩⟩
  · exact Std.LawfulRightIdentity.right_id m
  · exact Std.LawfulLeftIdentity.left_id m

def calledAt (position : Nat) : Model :=
  (∅ : Model).addGeneration .result (.ofKind ⟨0⟩)
    ⟨OrdSet.ofList [toString position], [⟨"caller", position, "callee", "Return"⟩]⟩

/-- Of two calls the first one is kept, and the features of both. -/
theorem join_semilattice_calledAt :
    (calledAt 1).Built ∧ (calledAt 2).join (calledAt 1) ≠ calledAt 2 ∧
      [calledAt 2, calledAt 1].Perm [calledAt 1, calledAt 2] ∧
      joinAll [calledAt 2, calledAt 1] = joinAll [calledAt 1, calledAt 2] ∧
      ∃ info, ((joinAll [calledAt 2, calledAt 1]).framesAt .generations .result).get?
          (.ofKind ⟨0⟩) = some info ∧
        info.trace = [⟨"caller", 1, "callee", "Return"⟩] ∧
        info.MergedFrom fun own => ∃ m ∈ [calledAt 2, calledAt 1],
          (m.framesAt .generations .result).get? (.ofKind ⟨0⟩) = some own := by
  obtain ⟨-, -, -, -, hchange, hperm, hinfo⟩ := join_semilattice
  have hbuilt : (calledAt 1).Built := .addGeneration .empty _ _ _
  have hswap : [calledAt 2, calledAt 1].Perm [calledAt 1, calledAt 2] := .swap _ _ _
  have hframe : ((joinAll [calledAt 2, calledAt 1]).framesAt .generations .result).get?
      (.ofKind ⟨0⟩) = some ⟨OrdSet.ofList ["1", "2"], [⟨"caller", 1, "callee", "Return"⟩]⟩ := by
    decide
  exact ⟨hbuilt, (hchange _ _ hbuilt).1 (by decide), hswap, hperm _ _ hswap, _, hframe, rfl,
    (hinfo _ _ _ _).2 _ hframe⟩

end Model

end TaintFlow
