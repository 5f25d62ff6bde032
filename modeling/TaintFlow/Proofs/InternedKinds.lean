import TaintFlow.Proofs.Acceptance
import TaintFlow.Proofs.TriggeredKinds

/-!
Histories of the table of kinds. A table is asked for the ids of kinds, of halves and of triggered
halves, and a request that is refused leaves it as it is. In a table that comes of requests no kind
is twice, the half of a triggered kind is at an older id, and the parts of a name hold no colons
(`KindTable.WellFormed`). So ids and kinds determine one another, and so do ids and names, since a
name comes apart at its colons (`Kind.name_inj`): `KindTable.after_interned`.
-/

namespace TaintFlow

/-! ### Names of kinds -/

namespace Kind

variable {k k' : Kind}

def WellNamed : Kind → Prop
  | named name => IsKindName name
  | half h => IsKindName h.base ∧ IsKindName h.label
  | triggered h _ => IsKindName h.base ∧ IsKindName h.label

def nameParts : Kind → List String
  | named name => [name]
  | half h => ["Partial", h.base, h.label]
  | triggered h rule => ["Triggered", "Partial", h.base, h.label, toString rule]

theorem name_eq_intercalate (k : Kind) :
    k.name = String.intercalate (String.singleton ':') k.nameParts := by
  cases k <;> simp [name, Half.name, nameParts, String.intercalate_cons_cons, String.append_assoc]

theorem notMem_repr {c : Char} (hc : c.isDigit = false) (n : Nat) : c ∉ n.repr.toList := fun h => by
  rw [Nat.toList_repr] at h
  exact absurd (Nat.isDigit_of_mem_toDigits (by decide) (by decide) h) (by simp [hc])

theorem colon_notMem_toString (rule : Int) : ':' ∉ (toString rule).toList := by
  rw [Int.toString_eq_repr]
  cases rule with
  | ofNat n => exact notMem_repr (by decide) n
  | negSucc n => simpa [Int.repr] using notMem_repr (c := ':') (by decide) (n + 1)

/-- The digits of a number can be read back, and a sign is no digit. -/
theorem repr_inj {rule rule' : Int} : rule.repr = rule'.repr ↔ rule = rule' := by
  refine ⟨fun h => ?_, congrArg Int.repr⟩
  have hdigits {n n' : Nat} (h : n.repr = n'.repr) : n = n' := by
    have hread := congrArg (fun s : String => Nat.ofDigitChars 10 s.toList 0) h
    simpa only [Nat.toList_repr, Nat.ofDigitChars_ten_toDigits] using hread
  have hsign (n n' : Nat) : n.repr ≠ "-" ++ n'.repr := fun h => by
    refine notMem_repr (c := '-') (by decide) n ?_
    simp [h]
  cases rule with
  | ofNat n =>
    cases rule' with
    | ofNat n' => exact congrArg Int.ofNat (hdigits h)
    | negSucc n' => exact absurd h (hsign n (n' + 1))
  | negSucc n =>
    cases rule' with
    | ofNat n' => exact absurd h.symm (hsign n' (n + 1))
    | negSucc n' =>
      exact congrArg Int.negSucc (Nat.succ.inj (hdigits ((String.append_right_inj "-").1 h)))

theorem colon_notMem_nameParts (hk : k.WellNamed) : ∀ part ∈ k.nameParts, ':' ∉ part.toList := by
  have hname {name : String} (h : IsKindName name) : ':' ∉ name.toList := fun hmem =>
    (h.2 ':' hmem).1 rfl
  cases k with
  | named name => simpa [nameParts] using hname hk
  | half h => simpa [nameParts] using ⟨hname hk.1, hname hk.2⟩
  | triggered h rule =>
    simpa [nameParts] using ⟨hname hk.1, hname hk.2, colon_notMem_toString rule⟩

theorem nameParts_inj (h : k.nameParts = k'.nameParts) : k = k' := by
  rcases k with name | ⟨base, label⟩ | ⟨⟨base, label⟩, rule⟩ <;>
    rcases k' with name' | ⟨base', label'⟩ | ⟨⟨base', label'⟩, rule'⟩ <;>
    simp_all [nameParts, repr_inj]

/-- Kinds with the same name are the same. -/
theorem name_inj (hk : k.WellNamed) (hk' : k'.WellNamed) (h : k.name = k'.name) : k = k' := by
  -- the parts hold no colons, hence they are read back from the name
  have hparts {k : Kind} (hk : k.WellNamed) :
      (k.name.split ':').toList.map (·.copy) = k.nameParts := by
    rw [name_eq_intercalate, String.toList_split_intercalate (colon_notMem_nameParts hk), if_neg]
    cases k <;> simp [nameParts]
  exact nameParts_inj ((hparts hk).symm.trans (h ▸ hparts hk'))

end Kind

namespace KindTable

/-! ### Requests -/

/-- What a table is asked for: the id of a kind, of a half, or of the triggered form of the half
that another id stands for. -/
inductive Request where
  | named (name : String)
  | half (base label : String)
  | trigger (id : KindId) (rule : Int)

/-- The answer to a request, and the table after it. There is no answer where something other than a
half is to be triggered. -/
def request (t : KindTable) : Request → Option (Except ConfigError KindId) × KindTable
  | .named name => ((Interning.named name).runOn t).map some id
  | .half base label => ((Interning.half base label).runOn t).map some id
  | .trigger id rule =>
    match t.trigger? id rule with
    | some (id, t') => (some (.ok id), t')
    | none => (none, t)

def run (t : KindTable) (requests : List Request) : KindTable :=
  requests.foldl (fun t r => (t.request r).2) t

def after (requests : List Request) : KindTable := (∅ : KindTable).run requests

def Request.Asks (t : KindTable) (kind : Kind) : Request → Prop
  | .named name => IsKindName name ∧ kind = .named name
  | .half base label => (IsKindName base ∧ IsKindName label) ∧ kind = .half ⟨base, label⟩
  | .trigger id rule => ∃ h, t.get? id = some (.half h) ∧ kind = .triggered h rule

def Request.refusal : Request → Option (Except ConfigError KindId)
  | .named name => some (.error (.invalidKind name))
  | .half base label => some (.error (.invalidKind (if validKindName base then label else base)))
  | .trigger _ _ => none

variable {t t' : KindTable} {r : Request} {id : KindId} {kind : Kind}

theorem run_append (t : KindTable) (requests later : List Request) :
    t.run (requests ++ later) = (t.run requests).run later := List.foldl_append

theorem after_append (requests later : List Request) :
    after (requests ++ later) = (after requests).run later := run_append ..

theorem runOn_internValid {names : List String} (h : ∀ name ∈ names, IsKindName name)
    (kind : Kind) (t : KindTable) :
    (Interning.internValid names kind).runOn t = (.ok (t.intern kind).1, (t.intern kind).2) := by
  have hnone : (names.find? fun name => !validKindName name) = none := by
    simpa [validKindName_iff] using h
  rw [Interning.internValid, hnone]
  rfl

theorem runOn_internValid_of_find? {names : List String} {name : String}
    (h : (names.find? fun name => !validKindName name) = some name) (kind : Kind) (t : KindTable) :
    (Interning.internValid names kind).runOn t = (.error (.invalidKind name), t) := by
  rw [Interning.internValid, h]
  rfl

theorem runOn_named_of_invalid {name : String} (h : ¬ IsKindName name) (t : KindTable) :
    (Interning.named name).runOn t = (.error (.invalidKind name), t) :=
  runOn_internValid_of_find? (by simp [validKindName_iff, h]) _ t

/-- A request about a kind that may be interned is answered with the id of the kind. -/
theorem request_of_asks (h : r.Asks t kind) :
    t.request r = (some (.ok (t.intern kind).1), (t.intern kind).2) := by
  cases r with
  | named name =>
    obtain ⟨hname, rfl⟩ := h
    rw [request, Interning.named, runOn_internValid (by simpa using hname)]
    rfl
  | half base label =>
    obtain ⟨⟨hbase, hlabel⟩, rfl⟩ := h
    rw [request, Interning.half, runOn_internValid (by simpa using ⟨hbase, hlabel⟩)]
    rfl
  | trigger id rule =>
    obtain ⟨half, hget, rfl⟩ := h
    simp only [request, trigger?, half?_eq_some_iff.2 hget, Option.map_some]

/-- Any other request is refused, and leaves the table as it is. -/
theorem request_of_refused (h : ∀ kind, ¬ r.Asks t kind) : t.request r = (r.refusal, t) := by
  cases r with
  | named name =>
    rw [request, runOn_named_of_invalid fun hname => h _ ⟨hname, rfl⟩]
    rfl
  | half base label =>
    have hnames : ¬ (validKindName base = true ∧ validKindName label = true) := fun hnames =>
      h _ ⟨hnames.imp validKindName_iff.1 validKindName_iff.1, rfl⟩
    have hfind : ([base, label].find? fun name => !validKindName name) =
        some (if validKindName base then label else base) := by
      cases hbase : validKindName base <;> simp_all
    rw [request, Interning.half, runOn_internValid_of_find? hfind]
    rfl
  | trigger id rule =>
    have hhalf : t.half? id = none := Option.eq_none_iff_forall_ne_some.2 fun half hhalf =>
      h _ ⟨half, half?_eq_some_iff.1 hhalf, rfl⟩
    simp only [request, trigger?, hhalf, Option.map_none, Request.refusal]

theorem asks_or_refused (t : KindTable) (r : Request) :
    (∃ kind, r.Asks t kind) ∨ ∀ kind, ¬ r.Asks t kind :=
  (em _).imp_right fun h kind hasks => h ⟨kind, hasks⟩

theorem starts_request (t : KindTable) (r : Request) : t.Starts (t.request r).2 := by
  rcases asks_or_refused t r with ⟨kind, hasks⟩ | hrefused
  · rw [request_of_asks hasks]
    exact t.starts_intern kind
  · rw [request_of_refused hrefused]
    exact .refl t

theorem starts_run (t : KindTable) (requests : List Request) : t.Starts (t.run requests) := by
  induction requests generalizing t with
  | nil => exact .refl t
  | cons r requests ih => exact (t.starts_request r).trans (ih (t.request r).2)

theorem Request.Asks.starts (h : r.Asks t kind) (hstarts : t.Starts t') : r.Asks t' kind := by
  cases r with
  | named | half => exact h
  | trigger id rule => exact h.imp fun _ hhalf => hhalf.imp_left (get?_of_starts hstarts)

/-- A request that was answered with an id is answered with it ever after. -/
theorem request_of_starts (h : (t.request r).1 = some (.ok id))
    (hstarts : (t.request r).2.Starts t') : t'.request r = (some (.ok id), t') := by
  rcases asks_or_refused t r with ⟨kind, hasks⟩ | hrefused
  · rw [request_of_asks hasks] at h hstarts
    cases h
    rw [request_of_asks (hasks.starts ((t.starts_intern kind).trans hstarts)),
      intern_of_starts hstarts]
  · rw [request_of_refused hrefused] at h
    cases r <;> simp [Request.refusal] at h

/-! ### What every history keeps -/

/-- No kind is twice in a table, and the half of a triggered kind is at an older id. -/
structure WellFormed (t : KindTable) : Prop where
  nodup : t.kinds.Nodup
  wellNamed : ∀ id kind, t.get? id = some kind → kind.WellNamed
  older : ∀ id h rule, t.get? id = some (.triggered h rule) →
    ∃ older : KindId, older.index < id.index ∧ t.get? older = some (.half h)

theorem wellFormed_empty : (∅ : KindTable).WellFormed :=
  ⟨List.nodup_nil, nofun, nofun⟩

theorem intern_of_find? (h : t.find? kind = some id) : t.intern kind = (id, t) := by
  rw [intern, h]

theorem intern_of_find?_eq_none (h : t.find? kind = none) :
    t.intern kind = (⟨t.size⟩, ⟨t.kinds ++ [kind]⟩) := by
  rw [intern, h]

theorem index_lt_of_get? (h : t.get? id = some kind) : id.index < t.size :=
  (List.getElem?_eq_some_iff.1 h).1

theorem get?_concat {kind' : Kind} (h : (⟨t.kinds ++ [kind']⟩ : KindTable).get? id = some kind) :
    t.get? id = some kind ∨ id = ⟨t.size⟩ ∧ kind = kind' := by
  rw [get?, List.getElem?_append] at h
  split at h
  · exact .inl h
  · obtain ⟨hindex, hkind⟩ := List.getElem?_eq_some_iff.1 h
    have hlast : id.index = t.size := by
      simp at hindex
      simp [size]
      omega
    exact .inr ⟨by rw [← hlast], by simpa using hkind.symm⟩

theorem WellFormed.intern (ht : t.WellFormed) (hnamed : kind.WellNamed)
    (hhalf : ∀ h rule, kind = .triggered h rule → ∃ older, t.get? older = some (.half h)) :
    (t.intern kind).2.WellFormed := by
  cases hfind : t.find? kind with
  | some id => rwa [intern_of_find? hfind]
  | none =>
    rw [intern_of_find?_eq_none hfind]
    have hnew : kind ∉ t.kinds := by simpa [find?, List.idxOf?_eq_none_iff] using hfind
    have hstarts : t.Starts ⟨t.kinds ++ [kind]⟩ := List.prefix_append _ _
    refine ⟨?_, fun id kind' hget => ?_, fun id h rule hget => ?_⟩
    · simpa using ht.nodup.concat hnew
    · rcases get?_concat hget with hget | ⟨-, rfl⟩
      · exact ht.wellNamed id kind' hget
      · exact hnamed
    · rcases get?_concat hget with hget | ⟨rfl, heq⟩
      · obtain ⟨older, hlt, holder⟩ := ht.older id h rule hget
        exact ⟨older, hlt, get?_of_starts hstarts holder⟩
      · obtain ⟨older, holder⟩ := hhalf h rule heq.symm
        exact ⟨older, index_lt_of_get? holder, get?_of_starts hstarts holder⟩

/-- One request keeps a table well formed. -/
theorem WellFormed.request (ht : t.WellFormed) (r : Request) : (t.request r).2.WellFormed := by
  rcases asks_or_refused t r with ⟨kind, hasks⟩ | hrefused
  · rw [request_of_asks hasks]
    cases r with
    | named name =>
      obtain ⟨hname, rfl⟩ := hasks
      exact ht.intern hname fun _ _ h => by cases h
    | half base label =>
      obtain ⟨hnames, rfl⟩ := hasks
      exact ht.intern hnames fun _ _ h => by cases h
    | trigger id rule =>
      -- the half is in the table already, under the id that was asked about
      obtain ⟨half, hget, rfl⟩ := hasks
      refine ht.intern (ht.wellNamed id (.half half) hget) fun h rule heq => ?_
      cases heq
      exact ⟨id, hget⟩
  · rw [request_of_refused hrefused]
    exact ht

theorem WellFormed.run (ht : t.WellFormed) (requests : List Request) :
    (t.run requests).WellFormed := by
  induction requests generalizing t with
  | nil => exact ht
  | cons r requests ih => exact ih (ht.request r)

/-! ### What a well-formed table is -/

/-- Ids, kinds and names determine one another in a table. -/
structure Interned (t : KindTable) : Prop where
  dense : ∀ id, (∃ kind, t.get? id = some kind) ↔ id.index < t.size
  find : ∀ id kind, t.find? kind = some id ↔ t.get? id = some kind
  findNamed : ∀ id name, t.findNamed? name = some id ↔ t.get? id = some (.named name)
  findHalf : ∀ id h, t.findHalf? h = some id ↔ t.get? id = some (.half h)
  findTriggered : ∀ id rule triggered, t.findTriggered? id rule = some triggered ↔
    ∃ h, t.get? id = some (.half h) ∧ t.get? triggered = some (.triggered h rule)
  older : ∀ id h rule, t.get? id = some (.triggered h rule) →
    ∃ older : KindId, older.index < id.index ∧ t.get? older = some (.half h) ∧
      t.name id = "Triggered:" ++ t.name older ++ ":" ++ toString rule ∧
      t.baseName id = t.baseName older
  name : ∀ id id', id.index < t.size → id'.index < t.size → t.name id = t.name id' → id = id'

theorem WellFormed.find?_eq_some_iff (ht : t.WellFormed) :
    t.find? kind = some id ↔ t.get? id = some kind := by
  refine ⟨get?_of_find?, fun hget => ?_⟩
  have hmem : kind ∈ t.kinds := List.mem_of_getElem? hget
  obtain ⟨id', hfind⟩ : ∃ id', t.find? kind = some id' :=
    Option.ne_none_iff_exists'.1 (by simpa [find?, List.idxOf?_eq_none_iff] using hmem)
  have hsame : t.get? id' = t.get? id := (get?_of_find? hfind).trans hget.symm
  have hindex : id'.index = id.index :=
    (List.getElem?_inj (index_lt_of_get? (get?_of_find? hfind)) ht.nodup).1 hsame
  obtain ⟨index⟩ := id
  obtain ⟨index'⟩ := id'
  rw [hfind, show index' = index from hindex]

theorem WellFormed.interned (ht : t.WellFormed) : t.Interned where
  dense id := ⟨fun ⟨_, h⟩ => index_lt_of_get? h, fun h => ⟨_, List.getElem?_eq_getElem h⟩⟩
  find id kind := ht.find?_eq_some_iff
  findNamed id name := ht.find?_eq_some_iff
  findHalf id h := ht.find?_eq_some_iff
  findTriggered id rule triggered := by
    simp only [findTriggered?, Option.bind_eq_some_iff, half?_eq_some_iff, ht.find?_eq_some_iff]
  older id h rule hget := by
    obtain ⟨older, hlt, holder⟩ := ht.older id h rule hget
    refine ⟨older, hlt, holder, ?_, ?_⟩
    · rw [KindTable.name, KindTable.name, hget, holder]
      rfl
    · rw [baseName, baseName, hget, holder]
      rfl
  name id id' hid hid' h := by
    have hget : t.get? id = some t.kinds[id.index] := List.getElem?_eq_getElem hid
    have hget' : t.get? id' = some t.kinds[id'.index] := List.getElem?_eq_getElem hid'
    rw [KindTable.name, KindTable.name, hget, hget'] at h
    have hkind := Kind.name_inj (ht.wellNamed _ _ hget) (ht.wellNamed _ _ hget') h
    rw [← ht.find?_eq_some_iff, hkind, ht.find?_eq_some_iff.2 hget'] at hget
    exact (Option.some.inj hget).symm

end KindTable

/-! ### Readings -/

namespace Interning

variable {α β : Type}

def ByRequests (m : Interning α) : Prop := ∀ t, ∃ requests, (m.runOn t).2 = t.run requests

theorem byRequests_pure (a : α) : ByRequests (pure a) := fun _ => ⟨[], rfl⟩

theorem byRequests_throw (e : ConfigError) : ByRequests (throw e : Interning α) :=
  fun _ => ⟨[], rfl⟩

theorem byRequests_request {m : Interning α} (r : KindTable.Request)
    (h : ∀ t, (m.runOn t).2 = (t.request r).2) : m.ByRequests := fun t => ⟨[r], h t⟩

theorem byRequests_bind {m : Interning α} {f : α → Interning β} (hm : m.ByRequests)
    (hf : ∀ a, (f a).ByRequests) : (m >>= f).ByRequests := by
  intro t
  obtain ⟨requests, hfirst⟩ := hm t
  rw [runOn_bind]
  split
  · next a t₁ ha =>
    obtain ⟨later, hlater⟩ := hf a t₁
    refine ⟨requests ++ later, ?_⟩
    rw [hlater, KindTable.run_append, ← hfirst, ha]
  · next e t₁ he => exact ⟨requests, by rw [← hfirst, he]⟩

/-- What was interned stays, whether the reading that follows is accepted or refused. -/
theorem starts_bind {m : Interning α} {f : α → Interning β} (hf : ∀ a, (f a).ByRequests)
    {t t' : KindTable} {a : α} (h : m.runOn t = (.ok a, t')) :
    t'.Starts ((m >>= f).runOn t).2 := by
  obtain ⟨later, hlater⟩ := hf a t'
  rw [runOn_bind, h]
  exact hlater ▸ t'.starts_run later

theorem byRequests_guard {c : Prop} [Decidable c] {e : ConfigError} {m : Interning α}
    (hm : m.ByRequests) : ByRequests (do
      if c then throw e
      m) := by
  split
  · exact byRequests_bind (byRequests_throw e) fun _ => hm
  · exact hm

/-- A reading that does not touch the table. -/
theorem byRequests_lift (e : Except ConfigError α) : ByRequests (liftM e) := by
  cases e with
  | ok a => exact byRequests_pure a
  | error cause => exact byRequests_throw cause

theorem byRequests_mapM {f : α → Interning β} (hf : ∀ a, (f a).ByRequests) (as : List α) :
    (as.mapM f).ByRequests := by
  induction as with
  | nil => exact byRequests_pure []
  | cons a as ih =>
    rw [List.mapM_cons]
    exact byRequests_bind (hf a) fun _ => byRequests_bind ih fun _ => byRequests_pure _

theorem byRequests_mapM_option {f : α → Interning β} (hf : ∀ a, (f a).ByRequests)
    (a? : Option α) : (a?.mapM f).ByRequests := by
  cases a? with
  | none => exact byRequests_pure none
  | some a => exact byRequests_bind (hf a) fun _ => byRequests_pure _

theorem byRequests_forM {f : α → Interning Unit} (hf : ∀ a, (f a).ByRequests) (as : List α) :
    (as.forM f).ByRequests := by
  induction as with
  | nil => exact byRequests_pure ()
  | cons a as ih =>
    show (f a >>= fun _ => as.forM f).ByRequests
    exact byRequests_bind (hf a) fun _ => ih

theorem byRequests_named (name : String) : (named name).ByRequests :=
  byRequests_request (.named name) fun _ => rfl

theorem byRequests_half (base label : String) : (half base label).ByRequests :=
  byRequests_request (.half base label) fun _ => rfl

theorem byRequests_trigger (id : KindId) (rule : Int) : (trigger id rule).ByRequests :=
  byRequests_request (.trigger id rule) fun t => by
    show ((t.trigger? id rule).map Prod.snd).getD t = _
    simp only [KindTable.request]
    cases t.trigger? id rule <;> rfl

theorem byRequests_namedAll (names : List String) : (namedAll names).ByRequests :=
  byRequests_mapM byRequests_named names

/-- A list of names is interned up to the first one that may not name a kind. -/
theorem runOn_namedAll_of_invalid {names rest : List String} {name : String}
    (hnames : ∀ name ∈ names, IsKindName name) (hname : ¬ IsKindName name) (t : KindTable) :
    (namedAll (names ++ name :: rest)).runOn t =
      (.error (.invalidKind name), t.run (names.map .named)) := by
  induction names generalizing t with
  | nil =>
    rw [List.nil_append, namedAll, List.mapM_cons, runOn_bind,
      KindTable.runOn_named_of_invalid hname]
    rfl
  | cons first names ih =>
    obtain ⟨hfirst, hothers⟩ := List.forall_mem_cons.1 hnames
    have hrun : (named first).runOn t =
        (.ok (t.intern (.named first)).1, (t.intern (.named first)).2) :=
      KindTable.runOn_internValid (by simpa using hfirst) _ t
    have hrest : (names ++ name :: rest).mapM named = namedAll (names ++ name :: rest) := rfl
    have htable : (t.request (.named first)).2 = (t.intern (.named first)).2 :=
      congrArg Prod.snd hrun
    rw [List.cons_append, namedAll, List.mapM_cons, runOn_bind, hrun, hrest]
    dsimp only
    rw [runOn_bind, ih hothers, ← htable]
    rfl

end Interning

namespace Rule

open Interning

theorem byRequests_internAll (names : List String) : (internAll names).ByRequests :=
  byRequests_bind (byRequests_namedAll names) fun _ => byRequests_pure _

theorem byRequests_expand (rule : String) (labels : List String) (sink : PairedSink) :
    (expand rule labels sink).ByRequests := by
  obtain ⟨e, he⟩ := exists_expand_eq_lift rule labels sink
  rw [he]
  exact byRequests_lift e

theorem byRequests_pairedFlow (rule : String) (multiSources : OrdMap String (List String))
    (sinks : List PairedSink) : (pairedFlow rule multiSources sinks).ByRequests := by
  have hlabel (e : String × List String) : ByRequests (do
      if e.2.isEmpty then throw (.malformedRule rule (.labelWithoutSources e.1))
      return (e.1, ← internAll e.2)) :=
    byRequests_guard (byRequests_bind (byRequests_internAll _) fun _ => byRequests_pure _)
  refine byRequests_guard (byRequests_bind (byRequests_mapM hlabel _) fun _ => ?_)
  refine byRequests_bind (byRequests_mapM (byRequests_expand _ _) _) fun _ => ?_
  refine byRequests_guard (byRequests_bind (byRequests_mapM (fun e => ?_) _) fun _ => ?_)
  · exact byRequests_half e.1 e.2
  · exact byRequests_pure _

theorem byRequests_flowOf (d : RuleDeclaration) : (flowOf d).ByRequests := by
  refine byRequests_guard (byRequests_guard ?_)
  split
  · exact byRequests_guard (byRequests_bind (byRequests_internAll _) fun _ =>
      byRequests_bind (byRequests_internAll _) fun _ => byRequests_pure _)
  · exact byRequests_pairedFlow _ _ _
  all_goals exact byRequests_throw _

/-- A rule is read as its flow and what follows. -/
theorem exists_ofDeclaration_eq_bind (d : RuleDeclaration) : ∃ rest : Flow → Interning Rule,
    ofDeclaration d = flowOf d >>= rest ∧ ∀ flow, (rest flow).ByRequests := by
  refine ⟨_, rfl, fun flow => ?_⟩
  refine byRequests_bind (byRequests_lift _) fun _ => ?_
  refine byRequests_bind (byRequests_mapM_option byRequests_namedAll _) fun _ => ?_
  refine byRequests_bind (byRequests_lift _) fun _ => ?_
  refine byRequests_bind (byRequests_mapM_option byRequests_internAll _) fun _ => ?_
  cases flow with
  | direct _ _ => exact byRequests_pure _
  | paired _ sinks =>
    exact byRequests_bind (byRequests_forM (byRequests_trigger · d.code) _) fun _ =>
      byRequests_pure _

end Rule

namespace KindTable

/-- In the table after a history, ids, kinds and names determine one another. The next request is
answered with the id of the kind that it is about, a new one if the table does not have the kind, or
is refused and leaves the table as it is. Ids stand for the same kinds ever after, and requests that
were answered get the same id again. A reading that is refused keeps what it interned before: a list
of names those before the invalid one, and a rule the kinds of its flow. -/
theorem after_interned (requests : List Request) :
    (after requests).Interned ∧
    (∀ r kind, r.Asks (after requests) kind → (after requests).request r =
      match (after requests).find? kind with
      | some id => (some (.ok id), after requests)
      | none => (some (.ok ⟨(after requests).size⟩), ⟨(after requests).kinds ++ [kind]⟩)) ∧
    (∀ r, (∀ kind, ¬ r.Asks (after requests) kind) →
      (after requests).request r = (r.refusal, after requests)) ∧
    (∀ later id kind, (after requests).get? id = some kind →
      (after (requests ++ later)).get? id = some kind) ∧
    (∀ r id later, ((after requests).request r).1 = some (.ok id) →
      (after (requests ++ r :: later)).request r =
        (some (.ok id), after (requests ++ r :: later))) ∧
    (∀ names name rest, (∀ n ∈ names, IsKindName n) → ¬ IsKindName name →
      (Interning.namedAll (names ++ name :: rest)).runOn (after requests) =
        (.error (.invalidKind name), after (requests ++ names.map .named))) ∧
    ∀ d : RuleDeclaration,
      (∃ later, ((Rule.ofDeclaration d).runOn (after requests)).2 = after (requests ++ later)) ∧
      ∀ flow t, (Rule.flowOf d).runOn (after requests) = (.ok flow, t) →
        t.Starts ((Rule.ofDeclaration d).runOn (after requests)).2 := by
  refine ⟨(wellFormed_empty.run requests).interned, fun r kind hasks => ?_,
    fun r hrefused => request_of_refused hrefused, fun later id kind hget => ?_,
    fun r id later hid => ?_, fun names name rest hnames hname => ?_, fun d => ?_⟩
  · rw [request_of_asks hasks, intern]
    cases (after requests).find? kind <;> rfl
  · rw [after_append]
    exact get?_of_starts (starts_run _ later) hget
  · rw [after_append]
    exact request_of_starts hid (starts_run _ later)
  · rw [Interning.runOn_namedAll_of_invalid hnames hname, after_append]
  · obtain ⟨rest, heq, hrest⟩ := Rule.exists_ofDeclaration_eq_bind d
    rw [heq]
    refine ⟨?_, fun flow t hflow => Interning.starts_bind hrest hflow⟩
    obtain ⟨later, hlater⟩ :=
      Interning.byRequests_bind (Rule.byRequests_flowOf d) hrest (after requests)
    exact ⟨later, hlater.trans (after_append requests later).symm⟩

/-- Asks for a kind, an invalid one, a half, its triggered form for a rule with a negative code, the
triggered form of what is no half, and the kind again. -/
def launchRequests : List Request :=
  [.named "Password", .named "Partial:Launch", .half "Launch" "bytes", .trigger ⟨1⟩ (-4),
    .trigger ⟨0⟩ 4, .named "Password"]

/-- Three kinds are interned, and only the last one has its name. -/
theorem after_interned_launchRequests :
    (after launchRequests).size = 3 ∧
      ∀ id : KindId, id.index < 3 →
        ((after launchRequests).name id = "Triggered:Partial:Launch:bytes:-4" ↔ id = ⟨2⟩) := by
  have hsize : (after launchRequests).size = 3 := by decide
  have hname : (after launchRequests).name ⟨2⟩ = "Triggered:Partial:Launch:bytes:-4" := by decide
  obtain ⟨hinterned, -⟩ := after_interned launchRequests
  refine ⟨hsize, fun id hid => ⟨fun h => ?_, fun h => h ▸ hname⟩⟩
  exact hinterned.name id ⟨2⟩ (hsize ▸ hid) (by decide) (h.trans hname.symm)

end KindTable

end TaintFlow
