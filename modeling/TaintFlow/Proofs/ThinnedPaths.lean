import Mathlib.Data.List.Nodup
import Mathlib.Data.List.Perm.Subperm
import TaintFlow.CollapsedPaths
import TaintFlow.Proofs.Containers

/-!
Thinning out sets of paths. Paths are cut at one length after the other, the greatest length first.
A cut at a length replaces all that extends a crowded path of that length by the path. Of the paths
that extend a path of at least that length it adds none, so what holds from a length on is kept by
the cuts that follow (`CollapsedPaths.Thinned`). Once all cuts are made no path is crowded, a path
that has replaced anything has replaced all that extends it, and there is nothing left to cut
(`collapsePaths_thins`).
-/

namespace TaintFlow

theorem OrdSet.size_le_size {α : Type} [LinearOrd α] {s t : OrdSet α} (h : ∀ a ∈ s, a ∈ t) :
    s.size ≤ t.size := by
  rw [size_eq_length, size_eq_length]
  exact (List.subperm_of_subset s.nodup_toList fun a ha =>
    mem_toList.2 (h a (mem_toList.1 ha))).length_le

namespace CollapsedPaths

variable {m : OrdMap Path Path} {paths : OrdSet Path} {limit k : Nat} {path q r : Path}

def Extends (r q : Path) : Prop := q <+: r ∧ q ≠ r

instance : Decidable (Extends r q) := inferInstanceAs (Decidable (_ ∧ _))

def extensions (m : OrdMap Path Path) (q : Path) : OrdSet Path :=
  OrdSet.ofList (m.values.filter fun r => Extends r q)

/-- More than a limit of distinct replacements go on below a path. -/
def Crowded (limit : Nat) (m : OrdMap Path Path) (q : Path) : Prop := limit < (extensions m q).size

instance : Decidable (Crowded limit m q) := inferInstanceAs (Decidable (_ < _))

def uncut (paths : OrdSet Path) : OrdMap Path Path := paths.elements.mapValues fun path _ => path

/-- The replacements after the cuts at all lengths from `k` on. -/
def cutFrom (paths : OrdSet Path) (limit k : Nat) : OrdMap Path Path :=
  (List.range' k (longest paths - k)).reverse.foldl (cutAt limit) (uncut paths)

theorem cutFrom_zero (paths : OrdSet Path) (limit : Nat) :
    cutFrom paths limit 0 = collapsePaths paths limit := by
  rw [collapsePaths, List.range_eq_range']
  rfl

theorem cutFrom_of_ge (h : longest paths ≤ k) : cutFrom paths limit k = uncut paths := by
  rw [cutFrom, Nat.sub_eq_zero_of_le h]
  rfl

theorem cutFrom_of_lt (h : k < longest paths) :
    cutFrom paths limit k = cutAt limit (cutFrom paths limit (k + 1)) k := by
  obtain ⟨n, hn⟩ : ∃ n, longest paths - k = n + 1 := ⟨longest paths - k - 1, by omega⟩
  have hn' : longest paths - (k + 1) = n := by omega
  rw [cutFrom, cutFrom, hn, hn', List.range'_succ, List.reverse_cons, List.foldl_append]
  rfl

/-! ### One cut -/

theorem extends_iff : Extends r q ↔ q.length < r.length ∧ r.take q.length = q := by
  constructor
  · rintro ⟨hshorter, hne⟩
    exact ⟨Nat.lt_of_le_of_ne hshorter.length_le fun h => hne (hshorter.eq_of_length h),
      (List.prefix_iff_eq_take.1 hshorter).symm⟩
  · rintro ⟨hlt, htake⟩
    refine ⟨htake ▸ List.take_prefix _ r, ?_⟩
    rintro rfl
    exact Nat.lt_irrefl _ hlt

theorem mem_extensions : r ∈ extensions m q ↔ (∃ path, m.get? path = some r) ∧ Extends r q := by
  rw [extensions, OrdSet.mem_ofList, List.mem_filter, OrdMap.mem_values, decide_eq_true_iff]

theorem extending_eq (h : k < r.length) : extending m k r = extensions m (r.take k) := by
  refine OrdSet.ext fun a => ?_
  have hlength : (r.take k).length = k := List.length_take_of_le (Nat.le_of_lt h)
  rw [mem_extensions, extends_iff, hlength, extending, OrdSet.mem_ofList, List.mem_filter,
    OrdMap.mem_values]
  simp

def cut (limit : Nat) (m : OrdMap Path Path) (k : Nat) (r : Path) : Path :=
  if k < r.length ∧ Crowded limit m (r.take k) then r.take k else r

theorem get?_cutAt (limit : Nat) (m : OrdMap Path Path) (k : Nat) (path : Path) :
    (cutAt limit m k).get? path = (m.get? path).map (cut limit m k) := by
  have hcut (r : Path) : (if k < r.length ∧ limit < (extending m k r).size then r.take k else r) =
      cut limit m k r := by
    refine if_congr (and_congr_right fun h => ?_) rfl rfl
    rw [extending_eq h, Crowded]
  simp only [cutAt, OrdMap.get?_mapValues, hcut]

/-- A cut leaves a replacement as it is or puts a crowded path of the length in its place. -/
theorem of_get?_cutAt (h : (cutAt limit m k).get? path = some r) :
    ∃ own, m.get? path = some own ∧ cut limit m k own = r ∧
      (r = own ∨ r.length = k ∧ r <+: own ∧ Crowded limit m r) := by
  rw [get?_cutAt] at h
  obtain ⟨own, hown, rfl⟩ := Option.map_eq_some_iff.1 h
  refine ⟨own, hown, rfl, ?_⟩
  unfold cut
  split
  · next hcut =>
    exact .inr ⟨List.length_take_of_le (Nat.le_of_lt hcut.1), List.take_prefix k own, hcut.2⟩
  · exact .inl rfl

/-- All that extends a crowded path of the length is replaced by it. -/
theorem cut_of_crowded (h : Crowded limit m q) (hr : Extends r q) :
    cut limit m q.length r = q := by
  obtain ⟨hlt, htake⟩ := extends_iff.1 hr
  rw [cut, htake, if_pos ⟨hlt, h⟩]

/-- A cut brings nothing new below the paths of its length, and below longer ones. -/
theorem mem_extensions_cutAt (hq : k ≤ q.length) (h : r ∈ extensions (cutAt limit m k) q) :
    r ∈ extensions m q ∧ cut limit m k r = r := by
  obtain ⟨⟨path, hr⟩, hextends⟩ := mem_extensions.1 h
  obtain ⟨own, hown, hcut, rfl | ⟨hlength, -, -⟩⟩ := of_get?_cutAt hr
  · exact ⟨mem_extensions.2 ⟨⟨path, hown⟩, hextends⟩, hcut⟩
  · have hlt := (extends_iff.1 hextends).1
    omega

theorem Crowded.exists_mem (h : Crowded limit m q) : ∃ r, r ∈ extensions m q := by
  rw [Crowded, OrdSet.size_eq_length] at h
  obtain ⟨r, hr⟩ := List.exists_mem_of_length_pos (Nat.zero_lt_of_lt h)
  exact ⟨r, OrdSet.mem_toList.1 hr⟩

/-- After a cut no path of its length is crowded, and of the longer ones none is that was not. -/
theorem not_crowded_cutAt (h : ∀ q, k + 1 ≤ q.length → ¬ Crowded limit m q) (hq : k ≤ q.length) :
    ¬ Crowded limit (cutAt limit m k) q := by
  intro hcrowded
  have hle : (extensions (cutAt limit m k) q).size ≤ (extensions m q).size :=
    OrdSet.size_le_size fun r hr => (mem_extensions_cutAt hq hr).1
  have hbefore : Crowded limit m q := Nat.lt_of_lt_of_le hcrowded hle
  obtain rfl : k = q.length := by
    by_contra hne
    exact h q (by omega) hbefore
  obtain ⟨r, hr⟩ := hcrowded.exists_mem
  obtain ⟨hr, hsame⟩ := mem_extensions_cutAt hq hr
  have hextends := (mem_extensions.1 hr).2
  exact hextends.2 ((cut_of_crowded hbefore hextends).symm.trans hsame)

/-! ### All cuts -/

/-- What the cuts at all lengths from `k` on have made of the replacements. -/
structure Thinned (paths : OrdSet Path) (limit k : Nat) (m : OrdMap Path Path) : Prop where
  keys : ∀ path, (∃ r, m.get? path = some r) ↔ path ∈ paths
  shortened : ∀ path r, m.get? path = some r → r <+: path
  /-- Nothing is cut to less than the length. -/
  length : ∀ path r, m.get? path = some r → r = path ∨ k ≤ r.length
  bounded : ∀ q, k ≤ q.length → ¬ Crowded limit m q
  /-- A path that has replaced anything has replaced all that extends it. -/
  merged : ∀ path q, m.get? path = some q → q ≠ path →
    ∀ path' ∈ paths, Extends path' q → m.get? path' = some q
  /-- It was crowded after the cuts at all greater lengths. -/
  crowded : ∀ path q, m.get? path = some q → q ≠ path →
    Crowded limit (cutFrom paths limit (q.length + 1)) q

theorem get?_uncut : (uncut paths).get? path = some r ↔ path ∈ paths ∧ r = path := by
  rw [uncut, OrdMap.get?_mapValues, Option.map_eq_some_iff, ← OrdSet.get?_elements]
  exact ⟨fun ⟨_, hget, hr⟩ => ⟨hget, hr.symm⟩, fun ⟨hget, hr⟩ => ⟨(), hget, hr.symm⟩⟩

theorem length_le_longest (h : path ∈ paths) : path.length ≤ longest paths :=
  le_foldl_max 0 (List.mem_map_of_mem (OrdSet.mem_toList.2 h))

/-- Nothing extends the longest paths. -/
theorem thinned_uncut (h : longest paths ≤ k) : Thinned paths limit k (uncut paths) where
  keys path := by simp [get?_uncut]
  shortened path r hr := (get?_uncut.1 hr).2 ▸ List.prefix_refl r
  length path r hr := .inl (get?_uncut.1 hr).2
  bounded q hq hcrowded := by
    obtain ⟨r, hr⟩ := hcrowded.exists_mem
    obtain ⟨⟨path, hget⟩, hextends⟩ := mem_extensions.1 hr
    obtain ⟨hmem, rfl⟩ := get?_uncut.1 hget
    have hlt := (extends_iff.1 hextends).1
    have hle := length_le_longest hmem
    omega
  merged path q hq hne := absurd (get?_uncut.1 hq).2 hne
  crowded path q hq hne := absurd (get?_uncut.1 hq).2 hne

/-- A cut keeps what those at greater lengths have achieved. -/
theorem thinned_cutAt (hm : Thinned paths limit (k + 1) m)
    (hcuts : m = cutFrom paths limit (k + 1)) : Thinned paths limit k (cutAt limit m k) where
  keys path := by rw [get?_cutAt, ← hm.keys]; simp
  shortened path r hr := by
    obtain ⟨own, hown, -, rfl | ⟨-, hshorter, -⟩⟩ := of_get?_cutAt hr
    · exact hm.shortened path r hown
    · exact hshorter.trans (hm.shortened path own hown)
  length path r hr := by
    obtain ⟨own, hown, -, rfl | ⟨hlength, -, -⟩⟩ := of_get?_cutAt hr
    · exact (hm.length path r hown).imp_right Nat.le_of_succ_le
    · exact .inr (Nat.le_of_eq hlength.symm)
  bounded q hq := not_crowded_cutAt hm.bounded hq
  merged path q hq hne path' hpath' hextends := by
    obtain ⟨own, hown, hcut, rfl | ⟨rfl, -, hcrowded⟩⟩ := of_get?_cutAt hq
    · -- replaced before, with all that extends the replacement
      rw [get?_cutAt, hm.merged path q hown hne path' hpath' hextends, Option.map_some, hcut]
    · -- whatever stands for the other path extends the crowded path too
      obtain ⟨own', hown'⟩ := (hm.keys path').2 hpath'
      have hextends' : Extends own' q := by
        rcases hm.length path' own' hown' with rfl | hlength
        · exact hextends
        · have hshorter := hm.shortened path' own' hown'
          refine ⟨List.prefix_of_prefix_length_le hextends.1 hshorter (by omega), ?_⟩
          rintro rfl
          omega
      rw [get?_cutAt, hown', Option.map_some, cut_of_crowded hcrowded hextends']
  crowded path q hq hne := by
    obtain ⟨own, hown, -, rfl | ⟨hlength, -, hcrowded⟩⟩ := of_get?_cutAt hq
    · exact hm.crowded path q hown hne
    · rwa [hlength, ← hcuts]

theorem thinned_cutFrom (paths : OrdSet Path) (limit k : Nat) :
    Thinned paths limit k (cutFrom paths limit k) := by
  induction hn : longest paths - k generalizing k with
  | zero =>
    have hge : longest paths ≤ k := by omega
    rw [cutFrom_of_ge hge]
    exact thinned_uncut hge
  | succ n ih =>
    rw [cutFrom_of_lt (by omega)]
    exact thinned_cutAt (ih (k + 1) (by omega)) rfl

theorem thinned_collapsePaths (paths : OrdSet Path) (limit : Nat) :
    Thinned paths limit 0 (collapsePaths paths limit) := by
  rw [← cutFrom_zero]
  exact thinned_cutFrom paths limit 0

/-! ### Once more -/

theorem cutAt_uncut (h : ∀ q, ¬ Crowded limit (uncut paths) q) (k : Nat) :
    cutAt limit (uncut paths) k = uncut paths := by
  refine OrdMap.ext fun path => ?_
  rw [get?_cutAt]
  cases (uncut paths).get? path with
  | none => rfl
  | some r => rw [Option.map_some, cut, if_neg fun hcut => h _ hcut.2]

theorem cutFrom_of_not_crowded (h : ∀ q, ¬ Crowded limit (uncut paths) q) (k : Nat) :
    cutFrom paths limit k = uncut paths :=
  List.foldlRecOn (motive := fun m => m = uncut paths) _ _ rfl fun m hm k _ => by
    rw [hm, cutAt_uncut h k]

/-- The paths that a set of replacements crowds are those that are crowded. -/
theorem extensions_uncut_values (m : OrdMap Path Path) (q : Path) :
    extensions (uncut (OrdSet.ofList m.values)) q = extensions m q := by
  refine OrdSet.ext fun r => ?_
  rw [mem_extensions, mem_extensions]
  simp [get?_uncut, OrdSet.mem_ofList, OrdMap.mem_values]

end CollapsedPaths

open CollapsedPaths

/-- Thinning out keeps the set of paths and replaces each by a prefix. No more than the limit of
distinct replacements go on below any path, and a path is shortened only where that is needed: then
more than the limit went on below its replacement once all longer prefixes were cut, and now all of
them are replaced by it. Thinning out the replacements changes nothing. -/
theorem collapsePaths_thins (paths : OrdSet Path) (limit : Nat) :
    let result := collapsePaths paths limit
    (∀ path, (∃ r, result.get? path = some r) ↔ path ∈ paths) ∧
      (∀ path r, result.get? path = some r → r <+: path) ∧
      (∀ q, (extensions result q).size ≤ limit) ∧
      (∀ path q, result.get? path = some q → q ≠ path →
        (∀ path' ∈ paths, Extends path' q → result.get? path' = some q) ∧
          limit < (extensions (cutFrom paths limit (q.length + 1)) q).size) ∧
      collapsePaths (OrdSet.ofList result.values) limit = uncut (OrdSet.ofList result.values) := by
  intro result
  have hthinned : Thinned paths limit 0 result := thinned_collapsePaths paths limit
  have hbounded (q : Path) : ¬ Crowded limit result q := hthinned.bounded q (Nat.zero_le _)
  refine ⟨hthinned.keys, hthinned.shortened, fun q => Nat.le_of_not_lt (hbounded q),
    fun path q hq hne => ⟨hthinned.merged path q hq hne, hthinned.crowded path q hq hne⟩, ?_⟩
  rw [← cutFrom_zero, cutFrom_of_not_crowded fun q => ?_]
  rw [Crowded, extensions_uncut_values]
  exact hbounded q

end TaintFlow
