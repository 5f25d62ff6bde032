import TaintFlow.OrdSet

/-!
What lookups say about maps and sets. A map is determined by its lookups, so every operation gets
one equation about `get?`, and a set is determined by its members.
-/

namespace TaintFlow

/-- What a fold comes to have, where every step adds what its element adds and keeps the rest. -/
theorem foldl_iff {α β : Type} {P : β → Prop} {Q : α → Prop} {step : β → α → β}
    (h : ∀ b a, P (step b a) ↔ P b ∨ Q a) (as : List α) (b : β) :
    P (as.foldl step b) ↔ P b ∨ ∃ a ∈ as, Q a := by
  induction as generalizing b with
  | nil => simp
  | cons a as ih =>
    rw [List.foldl_cons, ih, h, or_assoc]
    simp

/-- What one element of a list sets and all keep holds after a fold over the list. -/
theorem foldl_of_mem {α β : Type} {P : β → Prop} {step : β → α → β} {as : List α} {a : α}
    (ha : a ∈ as) (hset : ∀ b, P (step b a)) (hkeep : ∀ b, ∀ a ∈ as, P b → P (step b a)) (b : β) :
    P (as.foldl step b) := by
  obtain ⟨before, after, rfl⟩ := List.append_of_mem ha
  rw [List.foldl_append, List.foldl_cons]
  exact List.foldlRecOn _ _ (hset _) fun b hb a' ha' =>
    hkeep b a' (List.mem_append.2 (.inr (List.mem_cons_of_mem a ha'))) hb

/-- What a fold starts from may be joined at its end. -/
theorem foldl_eq_op {α : Type} (op : α → α → α) (e : α) [Std.Associative op]
    [Std.LawfulRightIdentity op e] (a : α) (as : List α) :
    as.foldl op a = op a (as.foldl op e) :=
  have hid : op a e = a := Std.LawfulRightIdentity.right_id a
  calc as.foldl op a = as.foldl op (op a e) := by rw [hid]
    _ = op a (as.foldl op e) := List.foldl_assoc

theorem le_foldl_max {n : Nat} {ns : List Nat} (start : Nat) (h : n ∈ ns) :
    n ≤ ns.foldl max start :=
  foldl_of_mem h (fun b => Nat.le_max_right b n)
    (fun b _ _ hb => Nat.le_trans hb (Nat.le_max_left b _)) start

/-- The largest number is the one at the start or one of the list. -/
theorem foldl_max_mem (start : Nat) (ns : List Nat) :
    ns.foldl max start = start ∨ ns.foldl max start ∈ ns := by
  induction ns generalizing start with
  | nil => exact .inl rfl
  | cons n ns ih =>
    rw [List.foldl_cons]
    rcases ih (max start n) with h | h
    · rw [h]
      rcases Nat.le_total start n with hle | hle
      · exact .inr (by simp [Nat.max_eq_right hle])
      · exact .inl (Nat.max_eq_left hle)
    · exact .inr (List.mem_cons_of_mem n h)

theorem getElem?_concat {α : Type} (as : List α) (a : α) (i : Nat) :
    (as ++ [a])[i]? = if i = as.length then some a else as[i]? := by
  by_cases h : i = as.length
  · rw [if_pos h, h, List.getElem?_concat_length]
  · rw [if_neg h, List.getElem?_append]
    split
    · rfl
    · next hge =>
      rw [List.getElem?_eq_none (by simp; omega), List.getElem?_eq_none (Nat.le_of_not_lt hge)]

theorem rel_some_left {α β : Type} {r : α → β → Prop} {a : α} {b? : Option β}
    (h : Option.Rel r (some a) b?) : ∃ b, b? = some b ∧ r a b := by
  cases h with
  | some h => exact ⟨_, rfl, h⟩

theorem rel_some_right {α β : Type} {r : α → β → Prop} {a? : Option α} {b : β}
    (h : Option.Rel r a? (some b)) : ∃ a, a? = some a ∧ r a b := by
  cases h with
  | some h => exact ⟨_, rfl, h⟩

theorem rel_getD {α β : Type} {r : α → β → Prop} {a? : Option α} {b? : Option β}
    (h : Option.Rel r a? b?) {a : α} {b : β} (hdefault : r a b) : r (a?.getD a) (b?.getD b) := by
  cases h with
  | none => exact hdefault
  | some h => exact h

/-- Items that yield nothing may be left out. -/
theorem flatMap_filter_eq {α β : Type} {p : α → Bool} {f g : α → List β} {as : List α}
    (hkept : ∀ a ∈ as, p a = true → f a = g a) (hdropped : ∀ a ∈ as, p a = false → g a = []) :
    (as.filter p).flatMap f = as.flatMap g := by
  induction as with
  | nil => rfl
  | cons a as ih =>
    have hrest := ih (fun b hb => hkept b (List.mem_cons_of_mem a hb))
      fun b hb => hdropped b (List.mem_cons_of_mem a hb)
    cases hp : p a with
    | true =>
      rw [List.filter_cons_of_pos hp, List.flatMap_cons, List.flatMap_cons, hrest,
        hkept a List.mem_cons_self hp]
    | false =>
      rw [List.filter_cons_of_neg (by simp [hp]), List.flatMap_cons, hrest,
        hdropped a List.mem_cons_self hp, List.nil_append]

theorem flatMap_filter_of_nil {α β : Type} {p : α → Bool} {f : α → List β}
    (h : ∀ a, p a = false → f a = []) (as : List α) : (as.filter p).flatMap f = as.flatMap f :=
  flatMap_filter_eq (fun _ _ _ => rfl) fun a _ => h a

/-- Where one item alone yields anything, all that is yielded is yielded by it. -/
theorem flatMap_eq_of_unique {α β : Type} {f : α → List β} {a : α} {as : List α}
    (hnodup : as.Nodup) (ha : a ∈ as) (h : ∀ b ∈ as, b ≠ a → f b = []) : as.flatMap f = f a := by
  obtain ⟨before, after, rfl⟩ := List.append_of_mem ha
  obtain ⟨-, hafter, hbefore⟩ := List.nodup_append.1 hnodup
  have hnil : before.flatMap f = [] := List.flatMap_eq_nil_iff.2 fun b hb =>
    h b (List.mem_append.2 (.inl hb)) (hbefore b hb a List.mem_cons_self)
  have hnil' : after.flatMap f = [] := List.flatMap_eq_nil_iff.2 fun b hb =>
    h b (List.mem_append.2 (.inr (List.mem_cons_of_mem a hb)))
      fun heq => (List.nodup_cons.1 hafter).1 (heq ▸ hb)
  rw [List.flatMap_append, List.flatMap_cons, hnil, hnil', List.nil_append, List.append_nil]

namespace OrdMap

variable {κ ν μ : Type} [LinearOrd κ]

theorem lookup_eq_some_iff {k : κ} {v : ν} {entries : List (κ × ν)} (h : Ascending entries) :
    lookup k entries = some v ↔ (k, v) ∈ entries := by
  induction entries with
  | nil => simp [lookup]
  | cons e rest ih =>
    obtain ⟨he, hrest⟩ := List.pairwise_cons.1 h
    by_cases hk : compare k e.1 = .eq
    · obtain rfl := LinearOrd.eq_of_compare hk
      have hnot : (e.1, v) ∉ rest := fun hmem =>
        LinearOrd.ne_of_lt (he _ hmem) rfl
      simp only [lookup, hk, if_true, Option.some.injEq, List.mem_cons, hnot, or_false]
      exact ⟨fun hv => by rw [← hv], fun hv => congrArg Prod.snd hv.symm⟩
    · have hne : (k, v) ≠ e := by
        rintro rfl
        exact hk LinearOrd.compare_self
      simp only [lookup, hk, if_false, List.mem_cons, hne, false_or]
      exact ih hrest

theorem get?_eq_some_iff {m : OrdMap κ ν} {k : κ} {v : ν} :
    m.get? k = some v ↔ (k, v) ∈ m.entries :=
  lookup_eq_some_iff m.ascending

theorem mem_keys {m : OrdMap κ ν} {k : κ} : k ∈ m.keys ↔ ∃ v, m.get? k = some v := by
  simp [keys, get?_eq_some_iff]

theorem mem_values {m : OrdMap κ ν} {v : ν} : v ∈ m.values ↔ ∃ k, m.get? k = some v := by
  simp [values, get?_eq_some_iff]

theorem contains_iff {m : OrdMap κ ν} {k : κ} : m.contains k = true ↔ ∃ v, m.get? k = some v :=
  Option.isSome_iff_exists

theorem isEmpty_iff {m : OrdMap κ ν} : m.isEmpty = true ↔ ∀ k, m.get? k = none := by
  constructor
  · intro h k
    have hnil : m.entries = [] := List.isEmpty_iff.1 h
    show lookup k m.entries = none
    rw [hnil]
    rfl
  · intro h
    refine List.isEmpty_iff.2 (List.eq_nil_iff_forall_not_mem.2 fun e he => ?_)
    have := h e.1
    rw [get?_eq_some_iff.2 (show (e.1, e.2) ∈ m.entries from he)] at this
    cases this

theorem length_keys (m : OrdMap κ ν) : m.keys.length = m.size := List.length_map _

theorem nodup_keys (m : OrdMap κ ν) : m.keys.Nodup := by
  rw [keys, List.Nodup, List.pairwise_map]
  exact m.ascending.imp fun h => LinearOrd.ne_of_lt h

theorem get?_filter (p : κ → ν → Bool) (m : OrdMap κ ν) (k : κ) :
    (m.filter p).get? k = (m.get? k).filter (p k) := by
  ext v : 1
  rw [get?_eq_some_iff, Option.filter_eq_some_iff, get?_eq_some_iff]
  exact List.mem_filter

section

variable [DecidableEq κ]

theorem get?_alter (m : OrdMap κ ν) (k k' : κ) (f : Option ν → Option ν) :
    (m.alter k f).get? k' = if k' = k then f (m.get? k) else m.get? k' := by
  split
  · next h => exact h ▸ get?_alter_self m k f
  · next h => exact get?_alter_of_ne m f h

/-- The value that a list of entries adds up to under a key. -/
theorem get?_foldl_alter (unite : ν → ν → ν) (entries : List (κ × ν)) (m : OrdMap κ ν) (k : κ) :
    (entries.foldl (fun m e => m.alter e.1 fun v => some (v.elim e.2 (unite · e.2))) m).get? k =
      (entries.filter fun e => e.1 = k).foldl
        (fun v e => some (v.elim e.2 (unite · e.2))) (m.get? k) := by
  induction entries generalizing m with
  | nil => rfl
  | cons e rest ih =>
    rw [List.foldl_cons, ih, get?_alter]
    by_cases h : e.1 = k
    · subst h
      simp
    · simp [h, Ne.symm h]

theorem filter_key {entries : List (κ × ν)} (h : Ascending entries) (k : κ) :
    (entries.filter fun e => e.1 = k) = ((lookup k entries).map (k, ·)).toList := by
  induction entries with
  | nil => rfl
  | cons e rest ih =>
    obtain ⟨he, hrest⟩ := List.pairwise_cons.1 h
    by_cases hk : e.1 = k
    · subst hk
      have hnone : lookup e.1 rest = none := lookup_eq_none_of_lt he
      simp [lookup, ih hrest, hnone]
    · simp [lookup, hk, Ne.symm hk, ih hrest]

theorem get?_union (unite : ν → ν → ν) (m m' : OrdMap κ ν) (k : κ) :
    (union unite m m').get? k = Option.merge unite (m.get? k) (m'.get? k) := by
  rw [union, get?_foldl_alter, filter_key m'.ascending]
  show List.foldl _ _ ((m'.get? k).map (k, ·)).toList = _
  cases m.get? k <;> cases m'.get? k <;> rfl

theorem get?_ofList (unite : ν → ν → ν) (entries : List (κ × ν)) (k : κ) :
    (ofList unite entries).get? k =
      (entries.filter fun e => e.1 = k).foldl
        (fun v e => some (v.elim e.2 (unite · e.2))) none :=
  get?_foldl_alter unite entries ∅ k

/-- Entries under distinct keys are found again. -/
theorem get?_ofList_eq_some_iff {unite : ν → ν → ν} {entries : List (κ × ν)}
    (h : (entries.map Prod.fst).Nodup) {k : κ} {v : ν} :
    (ofList unite entries).get? k = some v ↔ (k, v) ∈ entries := by
  rw [get?_ofList]
  induction entries with
  | nil => simp
  | cons e rest ih =>
    obtain ⟨he, hrest⟩ := List.nodup_cons.1 h
    by_cases hk : e.1 = k
    · subst hk
      have hnone : (rest.filter fun e' => e'.1 = e.1) = [] := by
        refine List.filter_eq_nil_iff.2 fun e' he' => ?_
        simp only [decide_eq_true_eq]
        exact fun heq => he (heq ▸ List.mem_map_of_mem he')
      have hnot : (e.1, v) ∉ rest := fun hmem => he (List.mem_map.2 ⟨_, hmem, rfl⟩)
      simp only [decide_true, List.filter_cons_of_pos, hnone, List.foldl_cons, Option.elim_none,
        List.foldl_nil, Option.some.injEq, List.mem_cons, hnot, or_false]
      exact ⟨fun hv => by rw [← hv], fun hv => congrArg Prod.snd hv.symm⟩
    · have hne : (k, v) ≠ e := by
        rintro rfl
        exact hk rfl
      simp only [hk, decide_false, Bool.false_eq_true, not_false_eq_true,
        List.filter_cons_of_neg, List.mem_cons, hne, false_or]
      exact ih hrest

end

/-! ### All entries -/

section Each

variable {P : κ → ν → Prop} {Q : κ → μ → Prop} {m m' : OrdMap κ ν} {unite : ν → ν → ν}

def Each (P : κ → ν → Prop) (m : OrdMap κ ν) : Prop := ∀ k v, m.get? k = some v → P k v

theorem each_empty : Each P (∅ : OrdMap κ ν) := fun _ _ h => by cases h

theorem Each.of_mem (h : m.Each P) {e : κ × ν} (he : e ∈ m.entries) : P e.1 e.2 :=
  h e.1 e.2 (get?_eq_some_iff.2 he)

theorem Each.getD (h : m.Each P) {k : κ} {default : ν} (hdefault : P k default) :
    P k (m.getD k default) := by
  unfold OrdMap.getD
  cases hk : m.get? k with
  | none => exact hdefault
  | some v => exact h k v hk

theorem Each.filter (h : m.Each P) (p : κ → ν → Bool) : (m.filter p).Each P := by
  intro k v hv
  rw [get?_filter, Option.filter_eq_some_iff] at hv
  exact h k v hv.1

theorem Each.mapValues (h : m.Each P) {f : κ → ν → μ} (hf : ∀ k v, P k v → Q k (f k v)) :
    (m.mapValues f).Each Q := by
  intro k v hv
  rw [get?_mapValues] at hv
  obtain ⟨own, hown, rfl⟩ := Option.map_eq_some_iff.1 hv
  exact hf k own (h k own hown)

variable [DecidableEq κ]

theorem Each.alter (h : m.Each P) {k : κ} {f : Option ν → Option ν}
    (hf : ∀ v, f (m.get? k) = some v → P k v) : (m.alter k f).Each P := by
  intro k' v hv
  rw [get?_alter] at hv
  split at hv
  · next hk => exact hk ▸ hf v hv
  · exact h k' v hv

theorem Each.insert (h : m.Each P) {k : κ} {v : ν} (hv : P k v) : (m.insert k v).Each P :=
  h.alter fun _ heq => Option.some.inj heq ▸ hv

theorem Each.update (h : m.Each P) {k : κ} {default : ν} {f : ν → ν}
    (hf : P k (f (m.getD k default))) : (m.update k default f).Each P :=
  h.alter fun _ heq => Option.some.inj heq ▸ hf

/-- A value that is united with what is there has the property if united values have it. -/
theorem Each.add (h : m.Each P) (hunite : ∀ k v w, P k v → P k w → P k (unite v w)) {k : κ} {v : ν}
    (hv : P k v) : (m.alter k fun own => some (own.elim v (unite · v))).Each P := by
  refine h.alter fun w hw => ?_
  cases hown : m.get? k with
  | none =>
    rw [hown] at hw
    exact Option.some.inj hw ▸ hv
  | some own =>
    rw [hown] at hw
    exact Option.some.inj hw ▸ hunite k own v (h k own hown) hv

theorem Each.union (h : m.Each P) (h' : m'.Each P)
    (hunite : ∀ k v w, P k v → P k w → P k (unite v w)) : (union unite m m').Each P :=
  List.foldlRecOn m'.entries _ h fun _ hm _ he => hm.add hunite (h'.of_mem he)

theorem each_ofList (hunite : ∀ k v w, P k v → P k w → P k (unite v w)) {entries : List (κ × ν)}
    (h : ∀ e ∈ entries, P e.1 e.2) : (ofList unite entries).Each P :=
  List.foldlRecOn entries _ each_empty fun _ hm e he => hm.add hunite (h e he)

end Each

/-! ### Values that know their keys -/

section Keyed

variable {key : ν → κ} {merge : ν → ν → ν}

def Keyed (key : ν → κ) (m : OrdMap κ ν) : Prop := ∀ k v, m.get? k = some v → key v = k

def addKeyed (key : ν → κ) (merge : ν → ν → ν) (m : OrdMap κ ν) (v : ν) : OrdMap κ ν :=
  m.alter (key v) fun own => some (own.elim v (merge · v))

theorem keyed_empty : Keyed key (∅ : OrdMap κ ν) := fun _ _ h => by cases h

theorem Keyed.entries {m : OrdMap κ ν} (h : Keyed key m) :
    m.entries = m.values.map fun v => (key v, v) := by
  rw [values, List.map_map, List.map_congr_left (g := id), List.map_id]
  intro e he
  rw [Function.comp_apply, h e.1 e.2 (get?_eq_some_iff.2 he)]
  rfl

theorem Keyed.ext {m m' : OrdMap κ ν} (h : Keyed key m) (h' : Keyed key m')
    (hvalues : m.values = m'.values) : m = m' := by
  refine OrdMap.ext fun k => ?_
  show lookup k m.entries = lookup k m'.entries
  rw [h.entries, h'.entries, hvalues]

theorem Keyed.values_filter {m : OrdMap κ ν} (h : Keyed key m) (p : κ → Bool) :
    (m.filter fun k _ => p k).values = m.values.filter fun v => p (key v) := by
  have hkey : ∀ e ∈ m.entries, key e.2 = e.1 := fun e he => h e.1 e.2 (get?_eq_some_iff.2 he)
  show ((m.entries.filter fun e => p e.1).map Prod.snd) =
    (m.entries.map Prod.snd).filter fun v => p (key v)
  rw [List.filter_map]
  refine congrArg (List.map Prod.snd) (List.filter_congr fun e he => ?_)
  rw [Function.comp_apply, hkey e he]

variable [DecidableEq κ]

/-- The value under a key is made of the values that were added under it. -/
theorem get?_foldl_addKeyed (key : ν → κ) (merge : ν → ν → ν) (news : List ν) (m : OrdMap κ ν)
    (k : κ) :
    (news.foldl (addKeyed key merge) m).get? k =
      (news.filter fun v => key v = k).foldl (fun own v => some (own.elim v (merge · v)))
        (m.get? k) := by
  induction news generalizing m with
  | nil => rfl
  | cons new news ih =>
    rw [List.foldl_cons, ih, addKeyed, get?_alter]
    by_cases h : key new = k
    · subst h
      simp
    · simp [h, Ne.symm h]

theorem Keyed.foldl {m : OrdMap κ ν} (h : Keyed key m)
    (hmerge : ∀ v w, key (merge v w) = key v) (news : List ν) :
    Keyed key (news.foldl (addKeyed key merge) m) := by
  induction news generalizing m with
  | nil => exact h
  | cons new news ih =>
    refine ih fun k v hv => ?_
    rw [addKeyed, get?_alter] at hv
    split at hv
    · next hk =>
      cases hown : m.get? (key new) with
      | none =>
        rw [hown] at hv
        cases hv
        exact hk.symm
      | some own =>
        rw [hown] at hv
        cases hv
        exact (hmerge own new).trans ((h _ own hown).trans hk.symm)
    · exact h k v hv

theorem filter_alter (p : κ → Bool) (m : OrdMap κ ν) (k : κ) (f : Option ν → Option ν) :
    (m.alter k f).filter (fun k _ => p k) =
      if p k then (m.filter fun k _ => p k).alter k f else m.filter fun k _ => p k := by
  refine ext fun k' => ?_
  have hfilter (k : κ) (v : Option ν) : v.filter (fun _ => p k) = if p k then v else none := by
    cases v <;> cases p k <;> simp [Option.filter]
  by_cases hp : p k = true
  · rw [if_pos hp]
    simp only [get?_filter, get?_alter, hfilter]
    by_cases hk : k' = k
    · simp [hk, hp]
    · simp [hk]
  · rw [if_neg hp]
    simp only [get?_filter, get?_alter, hfilter]
    by_cases hk : k' = k
    · simp [hk, hp]
    · simp [hk]

/-- What is added under other keys has no part in the entries under some keys. -/
theorem filter_foldl_addKeyed (p : κ → Bool) (news : List ν) (m : OrdMap κ ν) :
    (news.foldl (addKeyed key merge) m).filter (fun k _ => p k) =
      (news.filter fun v => p (key v)).foldl (addKeyed key merge) (m.filter fun k _ => p k) := by
  induction news generalizing m with
  | nil => rfl
  | cons new news ih =>
    rw [List.foldl_cons, ih, addKeyed, filter_alter]
    cases hp : p (key new)
    · simp [hp]
    · simp [hp, addKeyed]

end Keyed

/-! ### Changed values -/

section MapValues

variable {g : κ → ν → μ}

theorem mapValues_alter {f : Option ν → Option ν} {f' : Option μ → Option μ} {k : κ}
    (hf : ∀ own, (f own).map (g k) = f' (own.map (g k))) (m : OrdMap κ ν) :
    (m.alter k f).mapValues g = (m.mapValues g).alter k f' := by
  classical
  refine ext fun k' => ?_
  simp only [get?_mapValues, get?_alter]
  split
  · next hk => rw [hk, hf]
  · rfl

theorem mapValues_update (f : ν → ν) (f' : μ → μ) {k : κ} (default : ν)
    (hf : ∀ own, g k (f own) = f' (g k own)) (m : OrdMap κ ν) :
    (m.update k default f).mapValues g = (m.mapValues g).update k (g k default) f' :=
  mapValues_alter (fun own => by cases own <;> simp [hf]) m

theorem mapValues_erase (m : OrdMap κ ν) (k : κ) :
    (m.erase k).mapValues g = (m.mapValues g).erase k :=
  mapValues_alter (f := fun _ => none) (fun _ => rfl) m

theorem mapValues_insert (m : OrdMap κ ν) (k : κ) (v : ν) :
    (m.insert k v).mapValues g = (m.mapValues g).insert k (g k v) :=
  mapValues_alter (f := fun _ => some v) (fun _ => rfl) m

/-- Values that are united and then changed are changed and then united. -/
theorem mapValues_foldl (unite : ν → ν → ν) (unite' : μ → μ → μ)
    (hunite : ∀ k v w, g k (unite v w) = unite' (g k v) (g k w)) (entries : List (κ × ν))
    (m : OrdMap κ ν) :
    (entries.foldl (fun m e => m.alter e.1 fun v => some (v.elim e.2 (unite · e.2))) m).mapValues g =
      (entries.map fun e => (e.1, g e.1 e.2)).foldl
        (fun m e => m.alter e.1 fun v => some (v.elim e.2 (unite' · e.2))) (m.mapValues g) := by
  induction entries generalizing m with
  | nil => rfl
  | cons e entries ih =>
    have hadd : (m.alter e.1 fun v => some (v.elim e.2 (unite · e.2))).mapValues g =
        (m.mapValues g).alter e.1 fun v => some (v.elim (g e.1 e.2) (unite' · (g e.1 e.2))) :=
      mapValues_alter (fun own => by cases own <;> simp [hunite]) m
    rw [List.foldl_cons, ih, hadd]
    rfl

theorem mapValues_union {unite : ν → ν → ν} {unite' : μ → μ → μ}
    (hunite : ∀ k v w, g k (unite v w) = unite' (g k v) (g k w)) (m m' : OrdMap κ ν) :
    (m.union unite m').mapValues g = (m.mapValues g).union unite' (m'.mapValues g) :=
  mapValues_foldl unite unite' hunite m'.entries m

theorem mapValues_ofList (entries : List (κ × ν)) :
    (ofList (fun _ later => later) entries).mapValues g =
      ofList (fun _ later => later) (entries.map fun e => (e.1, g e.1 e.2)) :=
  mapValues_foldl (fun _ later => later) (fun _ later => later) (fun _ _ _ => rfl) entries ∅

/-- Values that are merged and then changed are changed and then merged. -/
theorem mapValues_foldl_addKeyed (h : ν → μ) (key : ν → κ) (key' : μ → κ) {merge : ν → ν → ν}
    {merge' : μ → μ → μ} (hkey : ∀ v, key' (h v) = key v)
    (hmerge : ∀ v w, h (merge v w) = merge' (h v) (h w)) (news : List ν) (m : OrdMap κ ν) :
    (news.foldl (addKeyed key merge) m).mapValues (fun _ => h) =
      (news.map h).foldl (addKeyed key' merge') (m.mapValues fun _ => h) := by
  induction news generalizing m with
  | nil => rfl
  | cons new news ih =>
    have hadd : (addKeyed key merge m new).mapValues (fun _ => h) =
        addKeyed key' merge' (m.mapValues fun _ => h) (h new) := by
      unfold addKeyed
      rw [hkey]
      exact mapValues_alter (fun own => by cases own <;> simp [hmerge]) m
    rw [List.foldl_cons, ih, hadd]
    rfl

theorem filter_mapValues (p : κ → Bool) (m : OrdMap κ ν) :
    (m.mapValues g).filter (fun k _ => p k) = (m.filter fun k _ => p k).mapValues g := by
  have hentries : (m.mapValues g).entries = m.entries.map fun e => (e.1, g e.1 e.2) := rfl
  unfold filter
  simp only [hentries, List.filter_map]
  rfl

theorem getD_mapValues (m : OrdMap κ ν) (k : κ) (default : ν) :
    (m.mapValues g).getD k (g k default) = g k (m.getD k default) := by
  rw [getD, get?_mapValues, getD]
  cases m.get? k <;> rfl

theorem contains_mapValues (m : OrdMap κ ν) (k : κ) :
    (m.mapValues g).contains k = m.contains k := by
  rw [contains, get?_mapValues, Option.isSome_map, contains]

theorem isEmpty_mapValues (m : OrdMap κ ν) : (m.mapValues g).isEmpty = m.isEmpty := List.isEmpty_map

theorem rel_of_mapValues_eq {h : ν → μ} {m n : OrdMap κ ν}
    (heq : m.mapValues (fun _ => h) = n.mapValues fun _ => h) (k : κ) :
    Option.Rel (fun v w => h v = h w) (m.get? k) (n.get? k) := by
  have hk := congrArg (·.get? k) heq
  simp only [get?_mapValues] at hk
  cases hv : m.get? k <;> cases hw : n.get? k <;> rw [hv, hw] at hk
  · exact .none
  · cases hk
  · cases hk
  · exact .some (Option.some.inj hk)

theorem values_mapValues (h : ν → μ) (m : OrdMap κ ν) :
    (m.mapValues fun _ => h).values = m.values.map h := by
  simp [values, mapValues, List.map_map, Function.comp_def]

end MapValues

/-- A map with ascending keys has its list of entries as its listing. -/
theorem entries_eq_of_ascending {m : OrdMap κ ν} {entries : List (κ × ν)}
    (h : Ascending entries) (hm : ∀ k, m.get? k = lookup k entries) : m.entries = entries :=
  ascending_eq_of_lookup m.ascending h hm

/-- A map with the same entries under keys that are ordered in the same way is listed in the same
way. -/
theorem entries_eq_map {κ' ν' : Type} [LinearOrd κ'] {m : OrdMap κ ν} {n : OrdMap κ' ν'}
    {g : κ → κ'} {h : ν → ν'}
    (hg : ∀ k ∈ m.keys, ∀ k' ∈ m.keys, compare (g k) (g k') = compare k k')
    (hm : ∀ k' v', n.get? k' = some v' ↔ ∃ k v, m.get? k = some v ∧ g k = k' ∧ h v = v') :
    n.entries = m.entries.map fun e => (g e.1, h e.2) := by
  have hascending : Ascending (m.entries.map fun e => (g e.1, h e.2)) := by
    rw [Ascending, List.pairwise_map]
    refine m.ascending.imp_of_mem fun {e e'} he he' hlt => ?_
    rw [hg e.1 (List.mem_map_of_mem he) e'.1 (List.mem_map_of_mem he')]
    exact hlt
  refine entries_eq_of_ascending hascending fun k' => ?_
  ext v' : 1
  rw [hm, lookup_eq_some_iff hascending, List.mem_map]
  constructor
  · rintro ⟨k, v, hkv, rfl, rfl⟩
    exact ⟨(k, v), get?_eq_some_iff.1 hkv, rfl⟩
  · rintro ⟨e, he, heq⟩
    cases heq
    exact ⟨e.1, e.2, get?_eq_some_iff.2 he, rfl, rfl⟩

end OrdMap

namespace OrdSet

variable {α β : Type} [LinearOrd α] [LinearOrd β]

theorem isSubset_iff {s t : OrdSet α} : s.isSubset t = true ↔ ∀ a ∈ s, a ∈ t := by
  rw [isSubset, List.all_eq_true]
  exact ⟨fun h a ha => h a (mem_toList.2 ha), fun h a ha => h a (mem_toList.1 ha)⟩

theorem mem_map {f : α → β} {s : OrdSet α} {b : β} : b ∈ s.map f ↔ ∃ a ∈ s, f a = b := by
  rw [map, mem_ofList, List.mem_map]
  exact exists_congr fun a => and_congr_left fun _ => mem_toList

theorem get?_elements {s : OrdSet α} {a : α} : s.elements.get? a = some () ↔ a ∈ s :=
  ⟨fun h => Option.isSome_iff_exists.2 ⟨(), h⟩, fun h => (Option.isSome_iff_exists.1 h).choose_spec⟩

/-- A set with the same elements, renamed in their order, is listed in the same order. -/
theorem toList_eq_map {s : OrdSet α} {t : OrdSet β} {g : α → β}
    (hg : ∀ a ∈ s, ∀ a' ∈ s, compare (g a) (g a') = compare a a')
    (ht : ∀ b, b ∈ t ↔ ∃ a ∈ s, g a = b) : t.toList = s.toList.map g := by
  have hentries := OrdMap.entries_eq_map (m := s.elements) (n := t.elements) (h := id)
    (fun a ha a' ha' => hg a (mem_toList.1 ha) a' (mem_toList.1 ha')) fun b u => by
      rw [get?_elements, ht]
      exact ⟨fun ⟨a, ha, hb⟩ => ⟨a, (), get?_elements.2 ha, hb, rfl⟩,
        fun ⟨a, _, ha, hb, _⟩ => ⟨a, get?_elements.1 ha, hb⟩⟩
  rw [toList, toList, OrdMap.keys, OrdMap.keys, hentries, List.map_map, List.map_map]
  rfl

theorem size_eq_length (s : OrdSet α) : s.size = s.toList.length :=
  (List.length_map Prod.fst).symm

theorem nodup_toList (s : OrdSet α) : s.toList.Nodup := s.elements.nodup_keys

theorem pairwise_toList (s : OrdSet α) : s.toList.Pairwise fun a b => compare a b = .lt :=
  List.pairwise_map.2 s.elements.ascending

/-- A set is listed as any list without repetitions of its elements, up to the order. -/
theorem toList_perm {s : OrdSet α} {as : List α} (has : as.Nodup) (h : ∀ a, a ∈ s ↔ a ∈ as) :
    s.toList.Perm as :=
  (List.perm_ext_iff_of_nodup s.nodup_toList has).2 fun a => mem_toList.trans (h a)

/-- An ascending list is the listing of its elements. -/
theorem toList_ofList {as : List α} (has : as.Pairwise fun a b => compare a b = .lt) :
    (ofList as).toList = as := by
  have hperm := toList_perm (s := ofList as) (has.imp LinearOrd.ne_of_lt) fun _ => mem_ofList
  refine hperm.eq_of_pairwise (fun a b _ _ hlt hgt => ?_) (pairwise_toList _) has
  exact absurd rfl (LinearOrd.ne_of_lt (LinearOrd.lt_trans hlt hgt))

theorem ofList_append (as as' : List α) : ofList (as ++ as') = ofList as ∪ ofList as' :=
  ext fun a => by simp [mem_ofList, mem_union]

theorem ofList_perm {as as' : List α} (h : as.Perm as') : ofList as = ofList as' :=
  ext fun a => by rw [mem_ofList, mem_ofList, h.mem_iff]

theorem union_eq_left {s t : OrdSet α} (h : ∀ a ∈ t, a ∈ s) : s ∪ t = s :=
  ext fun a => by
    rw [mem_union]
    exact ⟨fun ha => ha.elim id (h a), .inl⟩

end OrdSet

end TaintFlow
