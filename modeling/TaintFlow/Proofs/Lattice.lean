import TaintFlow.Model
import TaintFlow.Proofs.Containers

/-!
Joins are least upper bounds. `le` says that a join brings nothing new, and it is an order in which
`join` is the least upper bound of its arguments: of infos, of frame sets, of frames by port and of
models. A port without frames is the one thing that `le` does not see; where every port that is
listed holds a frame (`PortFrames.Occupied`), a join that brings nothing new is no change at all.
-/

namespace TaintFlow

/-! ### Maps compared value by value -/

namespace OrdMap

variable {κ ν : Type} [LinearOrd κ] {r : ν → ν → Prop}

def Le (r : ν → ν → Prop) (m m' : OrdMap κ ν) : Prop :=
  ∀ k v, m.get? k = some v → ∃ v', m'.get? k = some v' ∧ r v v'

theorem Le.refl (h : ∀ v, r v v) (m : OrdMap κ ν) : Le r m m := fun _ v hv => ⟨v, hv, h v⟩

theorem Le.trans {m m' m'' : OrdMap κ ν} (hm : Le r m m')
    (h : ∀ u v w, r u v → r v w → r u w) (hm' : Le r m' m'') : Le r m m'' := fun k v hv => by
  obtain ⟨v', hv', hr⟩ := hm k v hv
  obtain ⟨v'', hv'', hr'⟩ := hm' k v' hv'
  exact ⟨v'', hv'', h _ _ _ hr hr'⟩

theorem Le.antisymm {m m' : OrdMap κ ν} (hm : Le r m m')
    (h : ∀ u v, r u v → r v u → u = v) (hm' : Le r m' m) : m = m' := by
  ext k v
  constructor
  · intro hv
    obtain ⟨v', hv', hr⟩ := hm k v hv
    obtain ⟨w, hw, hr'⟩ := hm' k v' hv'
    rw [hv] at hw
    cases hw
    rw [hv', h _ _ hr hr']
  · intro hv
    obtain ⟨v', hv', hr⟩ := hm' k v hv
    obtain ⟨w, hw, hr'⟩ := hm k v' hv'
    rw [hv] at hw
    cases hw
    rw [hv', h _ _ hr hr']

variable [DecidableEq κ] {unite : ν → ν → ν}

theorem le_union_left (hr : ∀ v, r v v) (h : ∀ v w, r v (unite v w)) (m m' : OrdMap κ ν) :
    Le r m (union unite m m') := fun k v hv => by
  rw [get?_union, hv]
  cases m'.get? k with
  | none => exact ⟨v, rfl, hr v⟩
  | some w => exact ⟨_, rfl, h v w⟩

theorem le_union_right (hr : ∀ v, r v v) (h : ∀ v w, r w (unite v w)) (m m' : OrdMap κ ν) :
    Le r m' (union unite m m') := fun k v hv => by
  rw [get?_union, hv]
  cases m.get? k with
  | none => exact ⟨v, rfl, hr v⟩
  | some w => exact ⟨_, rfl, h w v⟩

theorem union_le (h : ∀ u v w, r u w → r v w → r (unite u v) w) {m m' n : OrdMap κ ν}
    (hm : Le r m n) (hm' : Le r m' n) : Le r (union unite m m') n := fun k v hv => by
  rw [get?_union] at hv
  cases hu : m.get? k with
  | none =>
    rw [hu, Option.merge_none_left] at hv
    exact hm' k v hv
  | some u =>
    obtain ⟨x, hx, hux⟩ := hm k u hu
    cases hw : m'.get? k with
    | none =>
      rw [hu, hw, Option.merge_none_right] at hv
      cases hv
      exact ⟨x, hx, hux⟩
    | some w =>
      obtain ⟨y, hy, hwy⟩ := hm' k w hw
      rw [hu, hw] at hv
      cases hv
      rw [hx] at hy
      cases hy
      exact ⟨x, hx, h _ _ _ hux hwy⟩

end OrdMap

/-! ### Traces -/

namespace Trace

theorem before_eq_false_iff {t u : Trace} :
    before t u = false ↔ (compare (key u) (key t)).isLE = true := by
  have hswap : compare (key t) (key u) = (compare (key u) (key t)).swap :=
    Std.OrientedCmp.eq_swap
  rw [before, hswap]
  cases compare (key u) (key t) <;> decide

/-- One trace is not preferred to another: the other one is shorter, or as long and not greater. -/
theorem before_eq_false_iff_length {t u : Trace} : before t u = false ↔
    u.length < t.length ∨ u.length = t.length ∧ (compare u t).isLE = true := by
  have hkey : compare (key u) (key t) = (compare u.length t.length).then (compare u t) := rfl
  rw [before_eq_false_iff, hkey]
  rcases Nat.lt_trichotomy u.length t.length with h | h | h
  · simp [Nat.compare_eq_lt.2 h, h]
  · simp [h]
  · have hne : u.length ≠ t.length := Nat.ne_of_gt h
    simp [Nat.compare_eq_gt.2 h, hne, Nat.not_lt_of_gt h]

theorem before_self (t : Trace) : before t t = false := by
  rw [before_eq_false_iff, LinearOrd.compare_self]
  rfl

theorem before_trans {t u v : Trace} (h : before t u = false) (h' : before u v = false) :
    before t v = false := by
  rw [before_eq_false_iff] at h h' ⊢
  exact Std.TransCmp.isLE_trans h' h

theorem before_asymm {t u : Trace} (h : before t u = true) : before u t = false := by
  rw [before, beq_iff_eq] at h
  rw [before, LinearOrd.gt_of_lt h]
  rfl

theorem eq_of_before {t u : Trace} (h : before t u = false) (h' : before u t = false) : t = u := by
  rw [before_eq_false_iff] at h h'
  have hkey : compare (key t) (key u) = .eq := by
    have hswap : compare (key u) (key t) = (compare (key t) (key u)).swap :=
      Std.OrientedCmp.eq_swap
    rw [hswap] at h
    revert h h'
    cases compare (key t) (key u) <;> decide
  exact congrArg Prod.snd (LinearOrd.eq_of_compare hkey)

end Trace

/-! ### Infos -/

namespace FrameInfo

theorem le_iff {i j : FrameInfo} :
    le i j = true ↔ (∀ a ∈ i.features, a ∈ j.features) ∧ Trace.before i.trace j.trace = false := by
  rw [le, Bool.and_eq_true, OrdSet.isSubset_iff, Bool.not_eq_true']

theorem le_refl (i : FrameInfo) : le i i = true :=
  le_iff.2 ⟨fun _ ha => ha, Trace.before_self _⟩

theorem le_trans {i j k : FrameInfo} (h : le i j = true) (h' : le j k = true) :
    le i k = true := by
  rw [le_iff] at h h' ⊢
  exact ⟨fun a ha => h'.1 a (h.1 a ha), Trace.before_trans h.2 h'.2⟩

theorem le_antisymm {i j : FrameInfo} (h : le i j = true) (h' : le j i = true) : i = j := by
  rw [le_iff] at h h'
  have hf : i.features = j.features := OrdSet.ext fun a => ⟨h.1 a, h'.1 a⟩
  have ht : i.trace = j.trace := Trace.eq_of_before h.2 h'.2
  cases i
  cases j
  cases hf
  cases ht
  rfl

theorem le_join_left (i j : FrameInfo) : le i (i.join j) = true := by
  refine le_iff.2 ⟨fun a ha => OrdSet.mem_union.2 (.inl ha), ?_⟩
  unfold join
  split
  · next h => exact Trace.before_asymm h
  · exact Trace.before_self _

theorem le_join_right (i j : FrameInfo) : le j (i.join j) = true := by
  refine le_iff.2 ⟨fun a ha => OrdSet.mem_union.2 (.inr ha), ?_⟩
  unfold join
  split
  · exact Trace.before_self _
  · next h => exact Bool.not_eq_true _ ▸ h

theorem join_le {i j k : FrameInfo} (h : le i k = true) (h' : le j k = true) :
    le (i.join j) k = true := by
  rw [le_iff] at h h' ⊢
  refine ⟨fun a ha => (OrdSet.mem_union.1 ha).elim (h.1 a) (h'.1 a), ?_⟩
  unfold join
  split
  · exact h'.2
  · exact h.2

end FrameInfo

/-! ### Frame sets -/

namespace FrameSet

theorem le_iff {s t : FrameSet} :
    le s t = true ↔ OrdMap.Le (fun i j => FrameInfo.le i j = true) s t := by
  have habsorbs (f : Frame) (i : FrameInfo) :
      absorbs t f i = true ↔ ∃ j, t.get? f = some j ∧ FrameInfo.le i j = true := by
    rw [absorbs]
    cases t.get? f <;> simp
  rw [le, List.all_eq_true]
  exact ⟨fun h f i hi => (habsorbs f i).1 (h (f, i) (OrdMap.get?_eq_some_iff.1 hi)),
    fun h e he => (habsorbs e.1 e.2).2 (h e.1 e.2 (OrdMap.get?_eq_some_iff.2 he))⟩

theorem le_refl (s : FrameSet) : le s s = true :=
  le_iff.2 (OrdMap.Le.refl FrameInfo.le_refl s)

theorem le_trans {s t u : FrameSet} (h : le s t = true) (h' : le t u = true) : le s u = true :=
  le_iff.2 ((le_iff.1 h).trans (fun _ _ _ => FrameInfo.le_trans) (le_iff.1 h'))

theorem le_antisymm {s t : FrameSet} (h : le s t = true) (h' : le t s = true) : s = t :=
  (le_iff.1 h).antisymm (fun _ _ => FrameInfo.le_antisymm) (le_iff.1 h')

theorem empty_le (s : FrameSet) : le ∅ s = true := rfl

theorem le_join_left (s t : FrameSet) : le s (s.join t) = true :=
  le_iff.2 (OrdMap.le_union_left FrameInfo.le_refl FrameInfo.le_join_left s t)

theorem le_join_right (s t : FrameSet) : le t (s.join t) = true :=
  le_iff.2 (OrdMap.le_union_right FrameInfo.le_refl (fun i j => FrameInfo.le_join_right i j) s t)

theorem join_le {s t u : FrameSet} (h : le s u = true) (h' : le t u = true) :
    le (s.join t) u = true :=
  le_iff.2 (OrdMap.union_le (fun _ _ _ => FrameInfo.join_le) (le_iff.1 h) (le_iff.1 h'))

/-- What is above a set with a frame has a frame too. -/
theorem isEmpty_of_le {s t : FrameSet} (h : le s t = true) (hs : OrdMap.isEmpty s = false) :
    OrdMap.isEmpty t = false := by
  rw [← Bool.not_eq_true, OrdMap.isEmpty_iff] at hs ⊢
  intro ht
  refine hs fun f => Option.eq_none_iff_forall_ne_some.2 fun info hf => ?_
  obtain ⟨info', hf', -⟩ := le_iff.1 h f info hf
  rw [ht f] at hf'
  cases hf'

theorem join_eq_left {s t : FrameSet} (h : le t s = true) : s.join t = s :=
  le_antisymm (join_le (le_refl s) h) (le_join_left s t)

theorem get?_add (s : FrameSet) (f f' : Frame) (info : FrameInfo) :
    (s.add f info).get? f' =
      if f' = f then some ((s.get? f).elim info (FrameInfo.join · info)) else s.get? f' :=
  OrdMap.get?_alter s f f' _

end FrameSet

/-! ### Frames by port -/

namespace PortFrames

theorem le_iff {m n : PortFrames} :
    le m n = true ↔ ∀ port fs, m.get? port = some fs → FrameSet.le fs (n.getD port ∅) = true := by
  rw [le, List.all_eq_true]
  exact ⟨fun h port fs hfs => h (port, fs) (OrdMap.get?_eq_some_iff.1 hfs),
    fun h e he => h e.1 e.2 (OrdMap.get?_eq_some_iff.2 he)⟩

theorem getD_join (m n : PortFrames) (port : Port) :
    (m.join n).getD port ∅ = FrameSet.join (m.getD port ∅) (n.getD port ∅) := by
  rw [OrdMap.getD, join, OrdMap.get?_union, OrdMap.getD, OrdMap.getD]
  cases m.get? port with
  | none =>
    rw [Option.merge_none_left]
    exact (FrameSet.le_antisymm (FrameSet.join_le (FrameSet.empty_le _) (FrameSet.le_refl _))
      (FrameSet.le_join_right _ _)).symm
  | some fs =>
    cases n.get? port with
    | none => exact (FrameSet.join_eq_left (FrameSet.empty_le fs)).symm
    | some fs' => rfl

theorem le_getD {m n : PortFrames} (h : le m n = true) (port : Port) :
    FrameSet.le (m.getD port ∅) (n.getD port ∅) = true := by
  rw [OrdMap.getD]
  cases hm : m.get? port with
  | none => exact FrameSet.empty_le _
  | some fs => exact le_iff.1 h port fs hm

theorem le_of_getD {m n : PortFrames}
    (h : ∀ port, FrameSet.le (m.getD port ∅) (n.getD port ∅) = true) : le m n = true :=
  le_iff.2 fun port fs hfs => by simpa [OrdMap.getD, hfs] using h port

theorem le_refl (m : PortFrames) : le m m = true :=
  le_of_getD fun _ => FrameSet.le_refl _

theorem le_trans {m n o : PortFrames} (h : le m n = true) (h' : le n o = true) : le m o = true :=
  le_of_getD fun port => FrameSet.le_trans (le_getD h port) (le_getD h' port)

theorem le_join_left (m n : PortFrames) : le m (m.join n) = true :=
  le_of_getD fun port => by
    rw [getD_join]
    exact FrameSet.le_join_left _ _

theorem le_join_right (m n : PortFrames) : le n (m.join n) = true :=
  le_of_getD fun port => by
    rw [getD_join]
    exact FrameSet.le_join_right _ _

theorem join_le {m n o : PortFrames} (h : le m o = true) (h' : le n o = true) :
    le (m.join n) o = true :=
  le_of_getD fun port => by
    rw [getD_join]
    exact FrameSet.join_le (le_getD h port) (le_getD h' port)

def Occupied (m : PortFrames) : Prop :=
  ∀ port fs, m.get? port = some fs → OrdMap.isEmpty fs = false

theorem occupied_empty : Occupied ∅ := fun _ _ h => by cases h

theorem get?_add (m : PortFrames) (port port' : Port) (f : Frame) (info : FrameInfo) :
    (m.add port f info).get? port' =
      if port' = port then some (FrameSet.add (m.getD port ∅) f info) else m.get? port' :=
  OrdMap.get?_update m port port' ∅ _

theorem Occupied.add {m : PortFrames} (h : m.Occupied) (port : Port) (f : Frame)
    (info : FrameInfo) : (m.add port f info).Occupied := by
  intro port' fs hfs
  rw [get?_add] at hfs
  split at hfs
  · cases hfs
    refine Bool.eq_false_iff.2 fun hempty => ?_
    have := OrdMap.isEmpty_iff.1 hempty f
    simp [FrameSet.get?_add] at this
  · exact h port' fs hfs

theorem join_eq_left {m n : PortFrames} (hn : n.Occupied) (h : le n m = true) : m.join n = m := by
  refine OrdMap.ext fun port => ?_
  rw [join, OrdMap.get?_union]
  cases hport : n.get? port with
  | none => exact Option.merge_none_right ..
  | some fs =>
    have hle := le_iff.1 h port fs hport
    cases hm : m.get? port with
    | none =>
      rw [OrdMap.getD, hm] at hle
      have hnone : ∀ f, fs.get? f = none := fun f => by
        cases hf : fs.get? f with
        | none => rfl
        | some i =>
          obtain ⟨j, hj, -⟩ := FrameSet.le_iff.1 hle f i hf
          cases hj
      exact absurd (OrdMap.isEmpty_iff.2 hnone) (by simp [hn port fs hport])
    | some fs' =>
      rw [OrdMap.getD, hm] at hle
      exact congrArg some (FrameSet.join_eq_left hle)

/-- Beside the ports that `base` lists, those are listed that hold a frame. -/
def Over (base m : PortFrames) : Prop :=
  ∀ port, m.contains port = true ↔
    base.contains port = true ∨ OrdMap.isEmpty (m.getD port ∅) = false

theorem contains_of_getD {m : PortFrames} {port : Port}
    (h : OrdMap.isEmpty (m.getD port ∅) = false) : m.contains port = true := by
  rw [OrdMap.contains]
  cases hport : m.get? port with
  | none =>
    rw [OrdMap.getD, hport] at h
    cases h
  | some fs => rfl

theorem over_self (m : PortFrames) : Over m m :=
  fun _ => ⟨.inl, fun h => h.elim id contains_of_getD⟩

theorem contains_join {m n : PortFrames} {port : Port} :
    (m.join n).contains port = true ↔ m.contains port = true ∨ n.contains port = true := by
  rw [OrdMap.contains, OrdMap.contains, OrdMap.contains, join, OrdMap.get?_union]
  cases m.get? port <;> cases n.get? port <;> simp [Option.merge]

theorem Over.join {base m n : PortFrames} (h : Over base m) (hn : n.Occupied) :
    Over base (m.join n) := by
  intro port
  rw [contains_join, h port]
  constructor
  · rintro ((hbase | hm) | hport)
    · exact .inl hbase
    · exact .inr (FrameSet.isEmpty_of_le (le_getD (le_join_left m n) port) hm)
    · obtain ⟨fs, hfs⟩ := OrdMap.contains_iff.1 hport
      refine .inr (FrameSet.isEmpty_of_le (le_getD (le_join_right m n) port) ?_)
      rw [OrdMap.getD, hfs]
      exact hn port fs hfs
  · rintro (hbase | hport)
    · exact .inl (.inl hbase)
    · rcases contains_join.1 (contains_of_getD hport) with hm | hn
      · exact .inl ((h port).1 hm)
      · exact .inr hn

/-- Frames over the same base that bring nothing new to each other are the same. -/
theorem Over.antisymm {base m n : PortFrames} (hm : Over base m) (hn : Over base n)
    (h : le m n = true) (h' : le n m = true) : m = n := by
  refine OrdMap.ext fun port => ?_
  have hframes : m.getD port ∅ = n.getD port ∅ :=
    FrameSet.le_antisymm (le_getD h port) (le_getD h' port)
  have hlisted : m.contains port = true ↔ n.contains port = true := by
    rw [hm port, hn port, hframes]
  rw [OrdMap.contains, OrdMap.contains] at hlisted
  rw [OrdMap.getD, OrdMap.getD] at hframes
  cases hport : m.get? port with
  | none =>
    cases hport' : n.get? port with
    | none => rfl
    | some fs => simp [hport, hport'] at hlisted
  | some fs =>
    cases hport' : n.get? port with
    | none => simp [hport, hport'] at hlisted
    | some fs' =>
      rw [hport, hport'] at hframes
      exact congrArg some hframes

end PortFrames

/-! ### Models -/

namespace Model

theorem le_iff {m n : Model} :
    le m n = true ↔
      PortFrames.le m.generations n.generations = true ∧
        PortFrames.le m.parameterSources n.parameterSources = true ∧
        PortFrames.le m.sinks n.sinks = true ∧
        (∀ p ∈ m.propagations, p ∈ n.propagations) ∧
        ∀ k ∈ m.effectSources, k ∈ n.effectSources := by
  simp only [le, Bool.and_eq_true, OrdSet.isSubset_iff, and_assoc]

theorem le_refl (m : Model) : le m m = true :=
  le_iff.2 ⟨PortFrames.le_refl _, PortFrames.le_refl _, PortFrames.le_refl _, fun _ h => h,
    fun _ h => h⟩

theorem le_trans {m n o : Model} (h : le m n = true) (h' : le n o = true) : le m o = true := by
  obtain ⟨hgenerations, hsources, hsinks, hpropagations, heffects⟩ := le_iff.1 h
  obtain ⟨hgenerations', hsources', hsinks', hpropagations', heffects'⟩ := le_iff.1 h'
  exact le_iff.2 ⟨PortFrames.le_trans hgenerations hgenerations',
    PortFrames.le_trans hsources hsources', PortFrames.le_trans hsinks hsinks',
    fun p hp => hpropagations' p (hpropagations p hp), fun k hk => heffects' k (heffects k hk)⟩

theorem le_join_left (m n : Model) : le m (m.join n) = true :=
  le_iff.2 ⟨PortFrames.le_join_left _ _, PortFrames.le_join_left _ _,
    PortFrames.le_join_left _ _, fun _ h => OrdSet.mem_union.2 (.inl h),
    fun _ h => OrdSet.mem_union.2 (.inl h)⟩

theorem join_le {m n o : Model} (h : le m o = true) (h' : le n o = true) :
    le (m.join n) o = true := by
  obtain ⟨hgenerations, hsources, hsinks, hpropagations, heffects⟩ := le_iff.1 h
  obtain ⟨hgenerations', hsources', hsinks', hpropagations', heffects'⟩ := le_iff.1 h'
  exact le_iff.2 ⟨PortFrames.join_le hgenerations hgenerations',
    PortFrames.join_le hsources hsources', PortFrames.join_le hsinks hsinks',
    fun p hp => (OrdSet.mem_union.1 hp).elim (hpropagations p) (hpropagations' p),
    fun k hk => (OrdSet.mem_union.1 hk).elim (heffects k) (heffects' k)⟩

theorem le_join_right (m n : Model) : le n (m.join n) = true :=
  le_iff.2 ⟨PortFrames.le_join_right _ _, PortFrames.le_join_right _ _,
    PortFrames.le_join_right _ _, fun _ h => OrdSet.mem_union.2 (.inr h),
    fun _ h => OrdSet.mem_union.2 (.inr h)⟩

structure Occupied (m : Model) : Prop where
  generations : m.generations.Occupied
  parameterSources : m.parameterSources.Occupied
  sinks : m.sinks.Occupied

theorem join_eq_left {m n : Model} (hn : n.Occupied) (h : le n m = true) : m.join n = m := by
  obtain ⟨hgenerations, hsources, hsinks, hpropagations, heffects⟩ := le_iff.1 h
  cases m
  simp only [join, PortFrames.join_eq_left hn.generations hgenerations,
    PortFrames.join_eq_left hn.parameterSources hsources,
    PortFrames.join_eq_left hn.sinks hsinks, OrdSet.union_eq_left hpropagations,
    OrdSet.union_eq_left heffects]

theorem occupied_ofFrames (frames : List (Port × Frame × FrameInfo)) :
    (ofFrames frames).Occupied :=
  List.foldlRecOn frames _ PortFrames.occupied_empty fun _ h e _ => h.add e.1 e.2.1 e.2.2

theorem Occupied.addSink {m : Model} (h : m.Occupied) (port : Port) (f : Frame)
    (info : FrameInfo) : (m.addSink port f info).Occupied where
  generations := h.generations
  parameterSources := h.parameterSources
  sinks := h.sinks.add port f info

structure Over (base m : Model) : Prop where
  generations : base.generations.Over m.generations
  parameterSources : base.parameterSources.Over m.parameterSources
  sinks : base.sinks.Over m.sinks

theorem over_self (m : Model) : Over m m :=
  ⟨PortFrames.over_self _, PortFrames.over_self _, PortFrames.over_self _⟩

theorem Over.join {base m n : Model} (h : Over base m) (hn : n.Occupied) :
    Over base (m.join n) :=
  ⟨h.generations.join hn.generations, h.parameterSources.join hn.parameterSources,
    h.sinks.join hn.sinks⟩

theorem Over.antisymm {base m n : Model} (hm : Over base m) (hn : Over base n)
    (h : le m n = true) (h' : le n m = true) : m = n := by
  obtain ⟨hgenerations, hsources, hsinks, hpropagations, heffects⟩ := le_iff.1 h
  obtain ⟨hgenerations', hsources', hsinks', hpropagations', heffects'⟩ := le_iff.1 h'
  cases m
  cases n
  congr 1
  · exact hm.generations.antisymm hn.generations hgenerations hgenerations'
  · exact hm.parameterSources.antisymm hn.parameterSources hsources hsources'
  · exact hm.sinks.antisymm hn.sinks hsinks hsinks'
  · exact OrdSet.ext fun p => ⟨hpropagations p, hpropagations' p⟩
  · exact OrdSet.ext fun k => ⟨heffects k, heffects' k⟩

end Model

end TaintFlow
