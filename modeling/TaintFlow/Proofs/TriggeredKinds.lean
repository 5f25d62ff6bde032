import TaintFlow.Proofs.LoadedRules
import TaintFlow.Proofs.Rereading

/-!
Triggered kinds of loaded rules. Accepting a declaration interns the triggered form of each of its
halves, and the table only grows afterwards, whatever else is read. So with the rules that were
loaded, the lookup of the triggered kind of a half never fails (`RuleSet.LoadedIn.triggers`).
-/

namespace TaintFlow

namespace KindTable

variable {t t' : KindTable} {id : KindId} {kind : Kind}

theorem get?_of_starts (h : t.Starts t') (hid : t.get? id = some kind) :
    t'.get? id = some kind := by
  obtain ⟨rest, hrest⟩ := h
  obtain ⟨hlt, -⟩ := List.getElem?_eq_some_iff.1 hid
  rw [get?, ← hrest, List.getElem?_append_left hlt]
  exact hid

theorem get?_of_find? (h : t.find? kind = some id) : t.get? id = some kind := by
  obtain ⟨i, hi, rfl⟩ := Option.map_eq_some_iff.1 h
  obtain ⟨hlt, hkind, -⟩ := List.idxOf?_eq_some_iff.1 hi
  rw [get?, List.getElem?_eq_getElem hlt, hkind]

theorem half?_eq_some_iff {h : Half} : t.half? id = some h ↔ t.get? id = some (.half h) := by
  unfold half?
  rcases t.get? id with _ | ⟨_⟩ | ⟨_⟩ | ⟨_⟩ <;> simp

theorem half?_of_starts {h : Half} (hstarts : t.Starts t') (hid : t.half? id = some h) :
    t'.half? id = some h :=
  half?_eq_some_iff.2 (get?_of_starts hstarts (half?_eq_some_iff.1 hid))

def Triggers (t : KindTable) (rule : Int) (sink : KindId) : Prop :=
  ∃ half triggered, t.half? sink = some half ∧ t.findTriggered? sink rule = some triggered ∧
    t.get? triggered = some (.triggered half rule)

theorem triggers_of_find? {half : Half} {rule : Int} {sink triggered : KindId}
    (hhalf : t.half? sink = some half) (h : t.find? (.triggered half rule) = some triggered) :
    t.Triggers rule sink :=
  ⟨half, triggered, hhalf, Option.bind_eq_some_iff.2 ⟨half, hhalf, h⟩, get?_of_find? h⟩

theorem Triggers.starts {rule : Int} {sink : KindId} (h : t.Triggers rule sink)
    (hstarts : t.Starts t') : t'.Triggers rule sink := by
  obtain ⟨half, triggered, hhalf, hfind, -⟩ := h
  obtain ⟨_, hhalf', hfind⟩ := Option.bind_eq_some_iff.1 hfind
  obtain rfl := Option.some.inj (hhalf.symm.trans hhalf')
  exact triggers_of_find? (half?_of_starts hstarts hhalf) (find?_of_starts hstarts hfind)

theorem half?_of_find? {h : Half} (hid : t.find? (.half h) = some id) : t.half? id = some h :=
  half?_eq_some_iff.2 (get?_of_find? hid)

structure Halves (t : KindTable) (base : String) (labels : List String) (sinks : OrdSet KindId) :
    Prop where
  found : ∀ label ∈ labels, ∃ id ∈ sinks, t.find? (.half ⟨base, label⟩) = some id
  label : ∀ id ∈ sinks, ∃ label ∈ labels, t.find? (.half ⟨base, label⟩) = some id

theorem Halves.starts {base : String} {labels : List String} {sinks : OrdSet KindId}
    (h : t.Halves base labels sinks) (hstarts : t.Starts t') : t'.Halves base labels sinks where
  found label hlabel :=
    (h.found label hlabel).imp fun _ => And.imp_right (find?_of_starts hstarts)
  label id hid := (h.label id hid).imp fun _ => And.imp_right (find?_of_starts hstarts)

end KindTable

/-! ### Readings and the kinds that they leave in the table -/

namespace Interning

variable {α β : Type} {t : KindTable} {P : KindTable → α → Prop} {Q : KindTable → β → Prop}

/-- From a table, whatever a reading accepts has a property with the table that it leaves, and that
table begins with the former one. -/
def Extends (t : KindTable) (m : Interning α) (P : KindTable → α → Prop) : Prop :=
  ∀ a t', m.runOn t = (.ok a, t') → t.Starts t' ∧ P t' a

theorem extends_pure {a : α} (h : P t a) : Extends t (pure a) P := by
  intro b t' hrun
  cases hrun
  exact ⟨.refl t, h⟩

theorem extends_throw {e : ConfigError} : Extends t (throw e) P := by
  intro a t' hrun
  cases hrun

theorem extends_bind {m : Interning α} {f : α → Interning β} (hm : Extends t m P)
    (hf : ∀ a t', t.Starts t' → P t' a → Extends t' (f a) Q) : Extends t (m >>= f) Q := by
  intro b t₂ hrun
  obtain ⟨a, t₁, ha, hb⟩ := runOn_bind_eq_ok_iff.1 hrun
  obtain ⟨hfirst, hPa⟩ := hm a t₁ ha
  obtain ⟨hrest, hQ⟩ := hf a t₁ hfirst hPa b t₂ hb
  exact ⟨hfirst.trans hrest, hQ⟩

theorem Extends.imp {m : Interning α} {P' : KindTable → α → Prop} (hm : Extends t m P)
    (h : ∀ a t', P t' a → P' t' a) : Extends t m P' :=
  fun a t' hrun => (hm a t' hrun).imp_right (h a t')

theorem Extends.and_yields {m : Interning α} {R : α → Prop} (hm : Extends t m P)
    (hR : m.Yields R) : Extends t m fun t' a => P t' a ∧ R a :=
  fun a t' hrun => ⟨(hm a t' hrun).1, (hm a t' hrun).2, hR t a t' hrun⟩

theorem steady_throw {e : ConfigError} : Steady (throw e : Interning α) := rereads_throw

theorem Steady.extends {m : Interning α} (hm : Steady m) : Extends t m fun _ _ => True :=
  fun a t' hrun => ⟨(hm t a t' hrun).1, trivial⟩

/-- A reading after a check, which throws or does nothing. -/
theorem extends_guard {c : Prop} [Decidable c] {e : ConfigError} {m : Interning α}
    (hm : ¬ c → Extends t m P) : Extends t (do
      if c then throw e
      m) P := by
  split
  · exact extends_bind (P := fun _ _ => False) extends_throw fun _ _ _ => False.elim
  · next hc => exact hm hc

theorem extends_mapM {R : KindTable → α → β → Prop} {f : α → Interning β}
    (hR : ∀ t t' a b, t.Starts t' → R t a b → R t' a b)
    (hf : ∀ t a, Extends t (f a) fun t' => R t' a) (as : List α) :
    Extends t (as.mapM f) fun t' bs =>
      (∀ a ∈ as, ∃ b ∈ bs, R t' a b) ∧ ∀ b ∈ bs, ∃ a ∈ as, R t' a b := by
  induction as generalizing t with
  | nil => exact extends_pure (by simp)
  | cons a as ih =>
    rw [List.mapM_cons]
    refine extends_bind (hf t a) fun b t₁ _ hb => extends_bind ih fun bs t₂ hlater hbs => ?_
    obtain ⟨hleft, hright⟩ := hbs
    have hab := hR t₁ t₂ a b hlater hb
    refine extends_pure
      ⟨List.forall_mem_cons.2 ⟨⟨b, List.mem_cons_self, hab⟩, fun a' ha' => ?_⟩,
        List.forall_mem_cons.2 ⟨⟨a, List.mem_cons_self, hab⟩, fun b' hb' => ?_⟩⟩
    · exact (hleft a' ha').imp fun _ => And.imp_left (List.mem_cons_of_mem b)
    · exact (hright b' hb').imp fun _ => And.imp_left (List.mem_cons_of_mem a)

theorem extends_foldlM {f : β → α → Interning β}
    (hf : ∀ t b a, Q t b → Extends t (f b a) Q) (as : List α) {b : β} (hb : Q t b) :
    Extends t (as.foldlM f b) Q := by
  induction as generalizing t b with
  | nil => exact extends_pure hb
  | cons a as ih =>
    rw [List.foldlM_cons]
    exact extends_bind (hf t b a hb) fun b' t' _ hb' => ih hb'

theorem extends_half (base label : String) :
    Extends t (half base label) fun t' id => t'.find? (.half ⟨base, label⟩) = some id := by
  unfold half internValid
  split
  · exact extends_throw
  · intro id t' hrun
    obtain ⟨hid, rfl⟩ : Except.ok (t.intern _).1 = .ok id ∧ (t.intern _).2 = t' :=
      Prod.mk.inj hrun
    cases hid
    exact ⟨t.starts_intern _, t.find?_intern _⟩

theorem extends_trigger {id : KindId} {h : Half} (hid : t.half? id = some h) (rule : Int) :
    Extends t (trigger id rule) fun t' _ => t'.Triggers rule id := by
  intro _ t' hrun
  have ht' : (t.intern (.triggered h rule)).2 = t' := by
    have htrigger : ((t.trigger? id rule).map Prod.snd).getD t = t' := (Prod.mk.inj hrun).2
    rwa [KindTable.trigger?, hid] at htrigger
  have hstarts : t.Starts t' := ht' ▸ t.starts_intern _
  exact ⟨hstarts, KindTable.triggers_of_find? (KindTable.half?_of_starts hstarts hid)
    (ht' ▸ t.find?_intern _)⟩

/-- Every half of a list gets its triggered form. -/
theorem extends_triggerAll (rule : Int) (ids : List KindId)
    (hids : ∀ id ∈ ids, ∃ h, t.half? id = some h) :
    Extends t (ids.forM (trigger · rule)) fun t' _ => ∀ id ∈ ids, t'.Triggers rule id := by
  induction ids generalizing t with
  | nil => exact extends_pure (by simp)
  | cons id ids ih =>
    obtain ⟨⟨h, hid⟩, hrest⟩ := List.forall_mem_cons.1 hids
    show Extends t (trigger id rule >>= fun _ => ids.forM (trigger · rule)) _
    refine extends_bind (extends_trigger hid rule) fun _ t₁ hfirst htriggers => ?_
    have hhalves : ∀ id ∈ ids, ∃ h, t₁.half? id = some h := fun id hmem =>
      (hrest id hmem).imp fun _ => KindTable.half?_of_starts hfirst
    intro a t₂ hrun
    obtain ⟨hlater, hall⟩ := ih hhalves a t₂ hrun
    exact ⟨hlater, List.forall_mem_cons.2 ⟨htriggers.starts hlater, hall⟩⟩

end Interning

/-! ### Declarations -/

namespace Rule

open Interning

variable {t : KindTable}

theorem steady_internAll (names : List String) : Steady (internAll names) :=
  steady_bind (steady_namedAll names) fun _ => steady_pure _

theorem steady_expand (rule : String) (labels : List String) (sink : PairedSink) :
    Steady (expand rule labels sink) := by
  obtain ⟨e, he⟩ := exists_expand_eq_lift rule labels sink
  rw [he]
  exact steady_lift e

/-- The sinks of an accepted paired flow are the halves of one base with the declared labels. -/
theorem extends_pairedFlow (rule : String) (multiSources : OrdMap String (List String))
    (declared : List PairedSink) :
    Extends t (pairedFlow rule multiSources declared) fun t' flow =>
      ∀ sources sinks, flow = .paired sources sinks →
        ∃ base, t'.Halves base multiSources.keys sinks := by
  have hlabel (e : String × List String) : Steady (do
      if e.2.isEmpty then throw (.malformedRule rule (.labelWithoutSources e.1))
      return (e.1, ← internAll e.2)) := by
    split
    · exact steady_bind steady_throw fun _ => steady_bind (steady_internAll _) fun _ => steady_pure _
    · exact steady_bind (steady_internAll _) fun _ => steady_pure _
  unfold pairedFlow
  refine extends_guard fun hsize => ?_
  refine extends_bind (steady_mapM hlabel _).extends fun read t₁ _ _ => ?_
  refine extends_bind ((steady_mapM (steady_expand _ _) _).extends.and_yields
    (yields_expandAll rule _ declared)) fun halves t₂ _ hhalves => ?_
  refine extends_guard fun hpair => ?_
  have hlength : multiSources.keys.length = 2 :=
    (OrdMap.length_keys _).trans (not_not.1 hsize)
  have hlabels : ∀ e ∈ OrdSet.ofList halves.flatten, e.2 ∈ multiSources.keys := by
    intro e he
    obtain ⟨sink, -, hexpands⟩ := (hhalves.2 e).1 (OrdSet.mem_ofList.1 he)
    exact hexpands.label_mem
  obtain ⟨base, hbase⟩ :=
    (isPair_iff multiSources.nodup_keys hlength hlabels).1 (by simpa using hpair)
  refine extends_bind (extends_mapM (R := fun t e id => t.find? (.half ⟨e.1, e.2⟩) = some id)
    (fun _ _ _ _ => KindTable.find?_of_starts) (fun t e => extends_half e.1 e.2) _)
    fun ids t₃ _ hids => ?_
  refine extends_pure fun sources sinks hflow =>
    ⟨base, fun label hlabel => ?_, fun id hid => ?_⟩
  all_goals cases hflow
  · obtain ⟨id, hid, hfind⟩ :=
      hids.1 (base, label) (OrdSet.mem_toList.2 ((hbase _).2 ⟨rfl, hlabel⟩))
    exact ⟨id, OrdSet.mem_ofList.2 hid, hfind⟩
  · obtain ⟨e, he, hfind⟩ := hids.2 id (OrdSet.mem_ofList.1 hid)
    obtain ⟨rfl, hlabel⟩ := (hbase e).1 (OrdSet.mem_toList.1 he)
    exact ⟨e.2, hlabel, hfind⟩

theorem extends_directFlow (rule : String) (sources sinks : List String) :
    Extends t (directFlow rule sources sinks) fun t' flow =>
      ∀ sources sinks, flow = .paired sources sinks →
        ∃ base, t'.Halves base sources.keys sinks := by
  unfold directFlow
  refine extends_guard fun _ => ?_
  refine extends_bind (steady_internAll _).extends fun _ _ _ _ => ?_
  exact extends_bind (steady_internAll _).extends fun _ _ _ _ => extends_pure nofun

/-- The sinks of an accepted flow are the halves of one base. -/
theorem extends_flowOf (d : RuleDeclaration) :
    Extends t (flowOf d) fun t' flow => ∀ sources sinks, flow = .paired sources sinks →
      ∃ base, t'.Halves base sources.keys sinks := by
  unfold flowOf
  refine extends_guard fun _ => extends_guard fun _ => ?_
  split
  · exact extends_directFlow _ _ _
  · refine ((extends_pairedFlow _ _ _).and_yields (yields_pairedFlow _ _ _)).imp ?_
    rintro flow t' ⟨hhalves, hlabels⟩ sources sinks rfl
    exact Option.some.inj hlabels.1 ▸ hhalves sources sinks rfl
  all_goals exact extends_throw

/-- An accepted rule has the triggered forms of its halves in the table. -/
theorem extends_ofDeclaration (d : RuleDeclaration) :
    Extends t (ofDeclaration d) fun t' r => (∀ sources sinks, r.flow = .paired sources sinks →
      ∃ base, t'.Halves base sources.keys sinks) ∧
        ∀ sink ∈ RuleSet.halfKeys r, t'.Triggers r.code sink := by
  unfold ofDeclaration
  refine extends_bind (extends_flowOf d) fun flow t₁ _ hflow => ?_
  refine extends_bind (steady_lift _).extends fun _ t₂ h₂ _ => ?_
  refine extends_bind (steady_mapM_option steady_namedAll _).extends fun _ t₃ h₃ _ => ?_
  refine extends_bind (steady_lift _).extends fun _ t₄ h₄ _ => ?_
  refine extends_bind (steady_mapM_option steady_internAll _).extends fun _ t₅ h₅ _ => ?_
  have hlater : t₁.Starts t₅ := ((h₂.trans h₃).trans h₄).trans h₅
  cases flow with
  | direct sources sinks => exact extends_pure ⟨nofun, by simp [RuleSet.halfKeys]⟩
  | paired sources sinks =>
    obtain ⟨base, hbase⟩ := hflow sources sinks rfl
    have hhalves := hbase.starts hlater
    have hsinks : ∀ sink ∈ sinks.toList, ∃ h, t₅.half? sink = some h := by
      intro sink hsink
      obtain ⟨label, -, hfind⟩ := hhalves.label sink (OrdSet.mem_toList.1 hsink)
      exact ⟨_, KindTable.half?_of_find? hfind⟩
    refine extends_bind (extends_triggerAll d.code _ hsinks) fun _ t₆ h₆ htriggers => ?_
    refine extends_pure ⟨fun sources' sinks' hpaired => ?_, htriggers⟩
    cases hpaired
    exact ⟨base, hhalves.starts h₆⟩

end Rule

namespace RuleSet

/-- Rules that were loaded, and the kinds in the table by then: declarations are accepted and added
to the rules of earlier files, rules that are not asked for are dropped, and other readings extend
the table. -/
inductive LoadedIn : RuleSet → KindTable → Prop where
  | empty (t : KindTable) : LoadedIn ∅ t
  | addAll {s s' : RuleSet} {ds : List RuleDeclaration} {t t' : KindTable} (hs : LoadedIn s t)
      (h : (s.addAll ds).runOn t = (.ok s', t')) : LoadedIn s' t'
  | retain {s : RuleSet} {t : KindTable} (hs : LoadedIn s t) (keep : Rule → Bool) :
      LoadedIn (s.retain keep) t
  | extend {s : RuleSet} {t t' : KindTable} (hs : LoadedIn s t) (h : t.Starts t') : LoadedIn s t'

namespace LoadedIn

variable {s : RuleSet} {t : KindTable}

theorem loaded (hs : s.LoadedIn t) : s.Loaded := by
  induction hs with
  | empty => exact .empty
  | addAll _ h ih => exact .addAll ih h
  | retain _ keep ih => exact .retain ih keep
  | extend _ _ ih => exact ih

/-- The triggered form of every half of a loaded rule is found. -/
theorem triggers (hs : s.LoadedIn t) :
    ∀ r ∈ s.rules, ∀ sink ∈ halfKeys r, t.Triggers r.code sink := by
  induction hs with
  | empty => exact fun _ h => absurd h List.not_mem_nil
  | @addAll s s' ds t t' _ h ih =>
    refine (Interning.extends_foldlM (Q := fun t s => ∀ r ∈ s.rules, ∀ sink ∈ halfKeys r,
      t.Triggers r.code sink) (fun t s d hs => ?_) ds ih s' t' h).2
    refine Interning.extends_bind (Rule.extends_ofDeclaration d) fun r t₁ hlater hr => ?_
    show Interning.Extends t₁ (liftM (s.add r)) _
    unfold add
    split
    · exact Interning.extends_throw
    · refine Interning.extends_pure fun r' hr' sink hsink => ?_
      rcases List.mem_append.1 hr' with hr' | hr'
      · exact (hs r' hr' sink hsink).starts hlater
      · obtain rfl := List.mem_singleton.1 hr'
        exact hr.2 sink hsink
  | @retain s t _ keep ih =>
    intro r hr
    rw [retain_eq, rules_ofRules] at hr
    exact ih r (List.mem_filter.1 hr).1
  | extend _ hlater ih => exact fun r hr sink hsink => (ih r hr sink hsink).starts hlater

end LoadedIn

end RuleSet

end TaintFlow
