import Mathlib.Data.List.Forall2
import TaintFlow.Program
import TaintFlow.Proofs.WrittenPorts

/-!
Declarations as JSON. A declaration is spelled by a value that has the members of a record
(`Json.RecordOf`), where a member that may be missing stands for a default value, other members of
an object stand for nothing, and any text of a port stands for it. Exactly the declarations that a
value spells are decoded from it. A declaration is encoded with all its members and with the text
of each port that `Port.render` writes, and is decoded again from that if its ports can be written
at all; an entry of a model file is so too, where the members stand beside the name of the method:
`MethodModel.decode_reencoded`.
-/

namespace TaintFlow

namespace Decode

variable {α β : Type} {m : Decode α} {f : α → Decode β} {R : β → α → Prop}

theorem bind_eq_ok_iff {b : β} : m >>= f = .ok b ↔ ∃ a, m = .ok a ∧ f a = .ok b := by
  cases m with
  | error e => exact ⟨fun h => (by cases h), fun ⟨_, h, _⟩ => (by cases h)⟩
  | ok a =>
    constructor
    · exact fun h => ⟨a, rfl, h⟩
    · rintro ⟨_, ⟨⟩, hb⟩
      exact hb

theorem pure_eq_ok_iff {a a' : α} : (pure a : Decode α) = .ok a' ↔ a = a' :=
  ⟨Except.ok.inj, congrArg Except.ok⟩

theorem mapM_eq_ok_iff (hf : ∀ b a, f a = .ok b ↔ R b a) {as : List α} {bs : List β} :
    as.mapM f = .ok bs ↔ List.Forall₂ R bs as := by
  induction as generalizing bs with
  | nil =>
    rw [List.mapM_nil, pure_eq_ok_iff, List.forall₂_nil_right_iff]
    exact eq_comm
  | cons a as ih =>
    simp only [List.mapM_cons, bind_eq_ok_iff, pure_eq_ok_iff, ih, hf, List.forall₂_cons_right_iff]
    constructor
    · rintro ⟨b, hb, bs, hbs, rfl⟩
      exact ⟨b, bs, hb, hbs, rfl⟩
    · rintro ⟨b, bs, hb, hbs, rfl⟩
      exact ⟨b, hb, bs, hbs, rfl⟩

end Decode

namespace Json

open Decode

variable {α : Type} {R : α → Json → Prop} {item : Json → Decode α} {fields : List String}
  {ms : Members} {name : String} {v : Json}

/-! ### Records -/

/-- The members of a record with some fields. An object may have other members beside the fields,
but no field twice; the items of an array are the values of the first fields. -/
inductive RecordOf (fields : List String) : Json → Members → Prop where
  | object {ms : Members} (h : ∀ name ∈ fields, ms.count name ≤ 1) : RecordOf fields (.obj ms) ms
  | array {items : List Json} (h : items.length ≤ fields.length) :
    RecordOf fields (.arr items) (fields.zip items)

def Members.Has (ms : Members) (name : String) (R : α → Json → Prop) (a : α) : Prop :=
  ∃ v, (name, v) ∈ ms ∧ R a v

/-- A member stands for a value, or is missing where that is the default. -/
def Members.HasOr (ms : Members) (name : String) (default : α) (R : α → Json → Prop) (a : α) :
    Prop :=
  ms.Has name R a ∨ (∀ v, (name, v) ∉ ms) ∧ a = default

def ListOf (R : α → Json → Prop) (as : List α) (v : Json) : Prop :=
  ∃ items, v = .arr items ∧ List.Forall₂ R as items

theorem refuseRepeated_eq_ok_iff {names : List String} :
    ms.refuseRepeated names = .ok () ↔ ∀ name ∈ names, ms.count name ≤ 1 := by
  have hall : (names.all fun name => ms.count name ≤ 1) = true ↔
      ∀ name ∈ names, ms.count name ≤ 1 := by simp
  rw [← hall, Members.refuseRepeated]
  split
  · next h => exact ⟨fun _ => h, fun _ => rfl⟩
  · next h => exact ⟨fun h => (by cases h), fun hall => absurd hall h⟩

theorem asRecord_eq_ok_iff : asRecord fields v = .ok ms ↔ v.RecordOf fields ms := by
  constructor
  · intro h
    cases v with
    | obj ms' =>
      obtain ⟨_, hms, h⟩ := bind_eq_ok_iff.1 h
      obtain rfl := pure_eq_ok_iff.1 h
      exact .object (refuseRepeated_eq_ok_iff.1 hms)
    | arr items =>
      rw [asRecord] at h
      split at h
      · next hlength =>
        obtain rfl := pure_eq_ok_iff.1 h
        exact .array hlength
      · cases h
    | _ => cases h
  · intro h
    cases h with
    | object h => exact bind_eq_ok_iff.2 ⟨(), refuseRepeated_eq_ok_iff.2 h, rfl⟩
    | array h => exact if_pos h

theorem count_zip_le (hfields : fields.Nodup) (items : List Json) :
    Members.count (fields.zip items) name ≤ 1 := by
  have hsublist : ((fields.zip items).map Prod.fst).Sublist fields := by
    rw [List.zip_eq_zip_take_min, List.map_fst_zip (by simp)]
    exact List.take_sublist _ _
  have hcount := List.nodup_iff_count.1 (hfields.sublist hsublist) name
  rwa [List.count, List.countP_map] at hcount

/-- No field of a record is there twice. -/
theorem RecordOf.count_le (h : v.RecordOf fields ms) (hfields : fields.Nodup) :
    ∀ name ∈ fields, ms.count name ≤ 1 := by
  cases h with
  | object h => exact h
  | array => exact fun _ _ => count_zip_le hfields _

/-- What is decoded from a record is decoded from its members, of which no field is there twice. -/
theorem bind_asRecord_eq_ok_iff (hfields : fields.Nodup) {f : Members → Decode α} {a : α}
    {P : Members → Prop}
    (h : ∀ ms : Members, (∀ name ∈ fields, ms.count name ≤ 1) → (f ms = .ok a ↔ P ms)) :
    asRecord fields v >>= f = .ok a ↔ ∃ ms, v.RecordOf fields ms ∧ P ms := by
  simp only [bind_eq_ok_iff, asRecord_eq_ok_iff]
  exact exists_congr fun ms => and_congr_right fun hms => h ms (hms.count_le hfields)

theorem get?_eq_none_iff : ms.get? name = none ↔ ∀ v, (name, v) ∉ ms := by
  simp only [Members.get?, Option.map_eq_none_iff, List.find?_eq_none, beq_iff_eq]
  exact ⟨fun h v hv => h _ hv rfl, fun h m hm hname => h m.2 (hname ▸ hm)⟩

/-- A member that is there once is the one that is found. -/
theorem get?_eq_some_iff (hcount : ms.count name ≤ 1) : ms.get? name = some v ↔ (name, v) ∈ ms := by
  have hget : ms.get? name = ((ms.filter fun m => m.1 == name).head?).map Prod.snd := by
    rw [List.head?_filter, Members.get?]
  have hmem : (name, v) ∈ ms ↔ (name, v) ∈ ms.filter fun m => m.1 == name := by simp
  have hnames : ∀ m ∈ ms.filter fun m => m.1 == name, m.1 = name := fun m hm => by
    simpa using (List.mem_filter.1 hm).2
  rw [Members.count, List.countP_eq_length_filter] at hcount
  rw [hget, hmem]
  clear hget hmem
  generalize (ms.filter fun m => m.1 == name) = found at hcount hnames ⊢
  match found with
  | [] => simp
  | [(name', w)] =>
    obtain rfl : name' = name := hnames _ (List.mem_singleton_self _)
    simp [eq_comm]
  | _ :: _ :: _ => simp at hcount

theorem needed_eq_ok_iff {a? : Option α} {a : α} : needed a? = .ok a ↔ a? = some a := by
  cases a? with
  | none => exact ⟨fun h => (by cases h), fun h => (by cases h)⟩
  | some a' => exact pure_eq_ok_iff.trans ⟨congrArg some, Option.some.inj⟩

theorem take?_eq_ok_none_iff : ms.take? name item = .ok none ↔ ∀ v, (name, v) ∉ ms := by
  rw [← get?_eq_none_iff, Members.take?]
  cases ms.get? name with
  | none => exact ⟨fun _ => rfl, fun _ => rfl⟩
  | some v =>
    refine ⟨fun h => ?_, fun h => (by cases h)⟩
    obtain ⟨_, _, h⟩ := bind_eq_ok_iff.1 h
    cases pure_eq_ok_iff.1 h

section

variable (hitem : ∀ a v, item v = .ok a ↔ R a v)

include hitem

theorem asArray_eq_ok_iff (as : List α) (v : Json) :
    asArray item v = .ok as ↔ ListOf R as v := by
  constructor
  · intro h
    cases v with
    | arr items => exact ⟨items, rfl, (mapM_eq_ok_iff hitem).1 h⟩
    | _ => cases h
  · rintro ⟨items, rfl, h⟩
    exact (mapM_eq_ok_iff hitem).2 h

theorem take?_eq_ok_some_iff (hcount : ms.count name ≤ 1) (a : α) :
    ms.take? name item = .ok (some a) ↔ ms.Has name R a := by
  simp only [Members.Has, ← get?_eq_some_iff hcount, ← hitem, Members.take?]
  cases ms.get? name with
  | none => exact ⟨fun h => (by cases h), fun ⟨_, h, _⟩ => (by cases h)⟩
  | some v =>
    have hmap : Option.mapM item (some v) = item v >>= fun a => pure (some a) := rfl
    simp only [hmap, bind_eq_ok_iff, pure_eq_ok_iff, Option.some.injEq, exists_eq_right,
      exists_eq_left']

theorem exists_take?_iff (hcount : ms.count name ≤ 1) (default a : α) :
    (∃ a?, ms.take? name item = .ok a? ∧ a?.getD default = a) ↔ ms.HasOr name default R a := by
  constructor
  · rintro ⟨_ | a, h, rfl⟩
    · exact .inr ⟨take?_eq_ok_none_iff.1 h, rfl⟩
    · exact .inl ((take?_eq_ok_some_iff hitem hcount a).1 h)
  · rintro (h | ⟨h, rfl⟩)
    · exact ⟨some a, (take?_eq_ok_some_iff hitem hcount a).2 h, rfl⟩
    · exact ⟨none, take?_eq_ok_none_iff.2 h, rfl⟩

end

/-! ### Texts -/

theorem asString_eq_ok_iff (s : String) (v : Json) : asString v = .ok s ↔ .str s = v := by
  cases v with
  | str s' => exact pure_eq_ok_iff.trans ⟨fun h => by rw [h], fun h => (Json.str.inj h).symm⟩
  | _ => exact ⟨fun h => (by cases h), fun h => (by cases h)⟩

theorem asBool_eq_ok_iff (b : Bool) (v : Json) : asBool v = .ok b ↔ .bool b = v := by
  cases v with
  | bool b' => exact pure_eq_ok_iff.trans ⟨fun h => by rw [h], fun h => (Json.bool.inj h).symm⟩
  | _ => exact ⟨fun h => (by cases h), fun h => (by cases h)⟩

theorem asStrings_eq_ok_iff (ss : List String) (v : Json) :
    asStrings v = .ok ss ↔ strings ss = v := by
  refine (asArray_eq_ok_iff asString_eq_ok_iff ss v).trans ?_
  have hmap {items : List Json} :
      List.Forall₂ (fun s item => str s = item) ss items ↔ ss.map str = items := by
    rw [← List.forall₂_map_left_iff, List.forall₂_eq_eq_eq]
  simp only [ListOf, hmap, strings, eq_comm, exists_eq_right]

/-- A text or `null`. -/
theorem orNull_asString_eq_ok_iff (s? : Option String) (v : Json) :
    orNull asString v = .ok s? ↔ ofOption str s? = v := by
  cases v with
  | null => cases s? <;> exact pure_eq_ok_iff.trans (by simp [ofOption])
  | str s =>
    have hread : orNull asString (str s) = pure (some s) := rfl
    rw [hread, pure_eq_ok_iff]
    cases s? <;> simp [ofOption, eq_comm]
  | _ => cases s? <;> exact ⟨fun h => (by cases h), fun h => (by cases h)⟩

theorem takeNullable?_eq_ok_iff (hcount : ms.count name ≤ 1) (s? : Option String) :
    ms.takeNullable? name asString = .ok s? ↔ ms.HasOr name none (ofOption str · = ·) s? := by
  have hjoin (s? : Option (Option String)) : s?.join = s?.getD none := by cases s? <;> rfl
  rw [← exists_take?_iff orNull_asString_eq_ok_iff hcount]
  simp only [Members.takeNullable?, bind_eq_ok_iff, pure_eq_ok_iff, hjoin]

end Json

open Decode Json

/-! ### Entries -/

def Port.SpelledBy (p : Port) (v : Json) : Prop := ∃ text, v = .str text ∧ parse text = .ok p

theorem Port.decode_eq_ok_iff (p : Port) (v : Json) : decode v = .ok p ↔ p.SpelledBy v := by
  simp only [decode, bind_eq_ok_iff, asString_eq_ok_iff, SpelledBy, eq_comm (a := v)]
  refine exists_congr fun text => and_congr_right fun _ => ?_
  cases parse text with
  | ok port => exact pure_eq_ok_iff.trans ⟨congrArg Except.ok, Except.ok.inj⟩
  | error cause => exact ⟨fun h => (by cases h), fun h => (by cases h)⟩

theorem Port.SpelledBy.writable {p : Port} {v : Json} (h : p.SpelledBy v) : p.Writable :=
  writable_of_parse h.choose_spec.2

theorem Port.spelledBy_encode {p : Port} (h : p.Writable) : p.SpelledBy p.encode :=
  ⟨p.render, rfl, parse_render h⟩

namespace SourceDeclaration

variable {d : SourceDeclaration}

structure HeldBy (d : SourceDeclaration) (ms : Members) : Prop where
  kind : ms.Has "kind" (.str · = ·) d.kind
  port : ms.Has "port" Port.SpelledBy d.port
  features : ms.HasOr "features" [] (.strings · = ·) d.features

def SpelledBy (d : SourceDeclaration) (v : Json) : Prop :=
  ∃ ms, v.RecordOf memberNames ms ∧ d.HeldBy ms

theorem decode_eq_ok_iff (d : SourceDeclaration) (v : Json) : decode v = .ok d ↔ d.SpelledBy v := by
  refine bind_asRecord_eq_ok_iff (by decide) fun ms hcount => ?_
  simp only [bind_eq_ok_iff, needed_eq_ok_iff, pure_eq_ok_iff]
  have hkind := take?_eq_ok_some_iff asString_eq_ok_iff (hcount "kind" (by decide))
  have hport := take?_eq_ok_some_iff Port.decode_eq_ok_iff (hcount "port" (by decide))
  have hfeatures := exists_take?_iff asStrings_eq_ok_iff (hcount "features" (by decide)) []
  constructor
  · rintro ⟨features?, hf, _, hk, _, hp, kind, rfl, port, rfl, rfl⟩
    exact ⟨(hkind _).1 hk, (hport _).1 hp, (hfeatures _).1 ⟨_, hf, rfl⟩⟩
  · rintro ⟨hk, hp, hf⟩
    obtain ⟨features?, hf, h⟩ := (hfeatures _).2 hf
    exact ⟨features?, hf, _, (hkind _).2 hk, _, (hport _).2 hp, _, rfl, _, rfl, by rw [h]⟩

theorem SpelledBy.writable {v : Json} (h : d.SpelledBy v) : d.port.Writable := by
  obtain ⟨_, _, _, ⟨_, _, hport⟩, _⟩ := h
  exact hport.writable

theorem spelledBy_encode (h : d.port.Writable) : d.SpelledBy d.encode :=
  ⟨_, .object (by simp [memberNames, Members.count]),
    ⟨_, by simp, rfl⟩, ⟨_, by simp, Port.spelledBy_encode h⟩, .inl ⟨_, by simp, rfl⟩⟩

end SourceDeclaration

namespace SinkDeclaration

variable {d : SinkDeclaration}

structure HeldBy (d : SinkDeclaration) (ms : Members) : Prop where
  kind : ms.Has "kind" (.str · = ·) d.kind
  port : ms.Has "port" Port.SpelledBy d.port
  label : ms.HasOr "partial_label" none (.ofOption .str · = ·) d.label
  features : ms.HasOr "features" [] (.strings · = ·) d.features

def SpelledBy (d : SinkDeclaration) (v : Json) : Prop :=
  ∃ ms, v.RecordOf memberNames ms ∧ d.HeldBy ms

theorem decode_eq_ok_iff (d : SinkDeclaration) (v : Json) : decode v = .ok d ↔ d.SpelledBy v := by
  refine bind_asRecord_eq_ok_iff (by decide) fun ms hcount => ?_
  simp only [bind_eq_ok_iff, needed_eq_ok_iff, pure_eq_ok_iff]
  have hkind := take?_eq_ok_some_iff asString_eq_ok_iff (hcount "kind" (by decide))
  have hport := take?_eq_ok_some_iff Port.decode_eq_ok_iff (hcount "port" (by decide))
  have hlabel := takeNullable?_eq_ok_iff (hcount "partial_label" (by decide))
  have hfeatures := exists_take?_iff asStrings_eq_ok_iff (hcount "features" (by decide)) []
  constructor
  · rintro ⟨features?, hf, _, hk, _, hl, _, hp, kind, rfl, port, rfl, rfl⟩
    exact ⟨(hkind _).1 hk, (hport _).1 hp, (hlabel _).1 hl, (hfeatures _).1 ⟨_, hf, rfl⟩⟩
  · rintro ⟨hk, hp, hl, hf⟩
    obtain ⟨features?, hf, h⟩ := (hfeatures _).2 hf
    exact ⟨features?, hf, _, (hkind _).2 hk, _, (hlabel _).2 hl, _, (hport _).2 hp, _, rfl, _, rfl,
      by rw [h]⟩

theorem SpelledBy.writable {v : Json} (h : d.SpelledBy v) : d.port.Writable := by
  obtain ⟨_, _, _, ⟨_, _, hport⟩, _⟩ := h
  exact hport.writable

theorem spelledBy_encode (h : d.port.Writable) : d.SpelledBy d.encode :=
  ⟨_, .object (by simp [memberNames, Members.count]),
    ⟨_, by simp, rfl⟩, ⟨_, by simp, Port.spelledBy_encode h⟩, .inl ⟨_, by simp, rfl⟩,
    .inl ⟨_, by simp, rfl⟩⟩

end SinkDeclaration

namespace PropagationDeclaration

variable {d : PropagationDeclaration}

structure HeldBy (d : PropagationDeclaration) (ms : Members) : Prop where
  input : ms.Has "input" Port.SpelledBy d.input
  output : ms.Has "output" Port.SpelledBy d.output
  transforms : ms.HasOr "transforms" [] (.strings · = ·) d.transforms
  sanitizers : ms.HasOr "sanitizers" [] (.strings · = ·) d.sanitizers
  aliasing : ms.HasOr "alias" false (.bool · = ·) d.aliasing
  features : ms.HasOr "features" [] (.strings · = ·) d.features

def SpelledBy (d : PropagationDeclaration) (v : Json) : Prop :=
  ∃ ms, v.RecordOf memberNames ms ∧ d.HeldBy ms

theorem decode_eq_ok_iff (d : PropagationDeclaration) (v : Json) :
    decode v = .ok d ↔ d.SpelledBy v := by
  refine bind_asRecord_eq_ok_iff (by decide) fun ms hcount => ?_
  simp only [bind_eq_ok_iff, needed_eq_ok_iff, pure_eq_ok_iff]
  have hinput := take?_eq_ok_some_iff Port.decode_eq_ok_iff (hcount "input" (by decide))
  have houtput := take?_eq_ok_some_iff Port.decode_eq_ok_iff (hcount "output" (by decide))
  have htransforms := exists_take?_iff asStrings_eq_ok_iff (hcount "transforms" (by decide)) []
  have hsanitizers := exists_take?_iff asStrings_eq_ok_iff (hcount "sanitizers" (by decide)) []
  have haliasing := exists_take?_iff asBool_eq_ok_iff (hcount "alias" (by decide)) false
  have hfeatures := exists_take?_iff asStrings_eq_ok_iff (hcount "features" (by decide)) []
  constructor
  · rintro ⟨_, ha, _, hf, _, hi, _, ho, _, hs, _, ht, input, rfl, output, rfl, rfl⟩
    exact ⟨(hinput _).1 hi, (houtput _).1 ho, (htransforms _).1 ⟨_, ht, rfl⟩,
      (hsanitizers _).1 ⟨_, hs, rfl⟩, (haliasing _).1 ⟨_, ha, rfl⟩, (hfeatures _).1 ⟨_, hf, rfl⟩⟩
  · rintro ⟨hi, ho, ht, hs, ha, hf⟩
    obtain ⟨transforms?, ht, htransforms⟩ := (htransforms _).2 ht
    obtain ⟨sanitizers?, hs, hsanitizers⟩ := (hsanitizers _).2 hs
    obtain ⟨aliasing?, ha, haliasing⟩ := (haliasing _).2 ha
    obtain ⟨features?, hf, hfeatures⟩ := (hfeatures _).2 hf
    exact ⟨_, ha, _, hf, _, (hinput _).2 hi, _, (houtput _).2 ho, _, hs, _, ht, _, rfl, _, rfl,
      by rw [htransforms, hsanitizers, haliasing, hfeatures]⟩

theorem SpelledBy.writable {v : Json} (h : d.SpelledBy v) :
    d.input.Writable ∧ d.output.Writable := by
  obtain ⟨_, _, ⟨_, _, hinput⟩, ⟨_, _, houtput⟩, _⟩ := h
  exact ⟨hinput.writable, houtput.writable⟩

theorem spelledBy_encode (h : d.input.Writable) (h' : d.output.Writable) : d.SpelledBy d.encode :=
  ⟨_, .object (by simp [memberNames, Members.count]),
    ⟨_, by simp, Port.spelledBy_encode h⟩, ⟨_, by simp, Port.spelledBy_encode h'⟩,
    .inl ⟨_, by simp, rfl⟩, .inl ⟨_, by simp, rfl⟩, .inl ⟨_, by simp, rfl⟩, .inl ⟨_, by simp, rfl⟩⟩

end PropagationDeclaration

/-! ### Declarations -/

namespace Json

def Members.items (ms : Members) (name : String) : List Json :=
  match ms.get? name with
  | some (arr items) => items
  | _ => []

def entryPorts : Json → List Json
  | obj ms => ["port", "input", "output"].filterMap (Members.get? ms)
  | _ => []

def Members.ports (ms : Members) : List Json :=
  ["generations", "parameter_sources", "sinks", "propagations"].flatMap fun name =>
    (ms.items name).flatMap entryPorts

end Json

namespace ModelDeclaration

variable {d : ModelDeclaration}

structure HeldBy (d : ModelDeclaration) (ms : Members) : Prop where
  generations : ms.HasOr "generations" [] (ListOf SourceDeclaration.SpelledBy) d.generations
  parameterSources :
    ms.HasOr "parameter_sources" [] (ListOf SourceDeclaration.SpelledBy) d.parameterSources
  sinks : ms.HasOr "sinks" [] (ListOf SinkDeclaration.SpelledBy) d.sinks
  propagations : ms.HasOr "propagations" [] (ListOf PropagationDeclaration.SpelledBy) d.propagations
  effectSources : ms.HasOr "effect_sources" [] (.strings · = ·) d.effectSources

def SpelledBy (d : ModelDeclaration) (v : Json) : Prop :=
  ∃ ms, v.RecordOf memberNames ms ∧ d.HeldBy ms

theorem ofMembers_eq_ok_iff {ms : Members} (hcount : ∀ name ∈ memberNames, ms.count name ≤ 1) :
    ofMembers ms = .ok d ↔ d.HeldBy ms := by
  simp only [ofMembers, bind_eq_ok_iff, pure_eq_ok_iff]
  have hgenerations := exists_take?_iff (asArray_eq_ok_iff SourceDeclaration.decode_eq_ok_iff)
    (hcount "generations" (by decide)) []
  have hparameters := exists_take?_iff (asArray_eq_ok_iff SourceDeclaration.decode_eq_ok_iff)
    (hcount "parameter_sources" (by decide)) []
  have hsinks := exists_take?_iff (asArray_eq_ok_iff SinkDeclaration.decode_eq_ok_iff)
    (hcount "sinks" (by decide)) []
  have hpropagations := exists_take?_iff (asArray_eq_ok_iff PropagationDeclaration.decode_eq_ok_iff)
    (hcount "propagations" (by decide)) []
  have heffects := exists_take?_iff asStrings_eq_ok_iff (hcount "effect_sources" (by decide)) []
  constructor
  · rintro ⟨_, he, _, hg, _, hp, _, hc, _, hs, rfl⟩
    exact ⟨(hgenerations _).1 ⟨_, hg, rfl⟩, (hparameters _).1 ⟨_, hp, rfl⟩,
      (hsinks _).1 ⟨_, hs, rfl⟩, (hpropagations _).1 ⟨_, hc, rfl⟩, (heffects _).1 ⟨_, he, rfl⟩⟩
  · rintro ⟨hg, hp, hs, hc, he⟩
    obtain ⟨generations?, hg, hgenerations⟩ := (hgenerations _).2 hg
    obtain ⟨parameters?, hp, hparameters⟩ := (hparameters _).2 hp
    obtain ⟨sinks?, hs, hsinks⟩ := (hsinks _).2 hs
    obtain ⟨propagations?, hc, hpropagations⟩ := (hpropagations _).2 hc
    obtain ⟨effects?, he, heffects⟩ := (heffects _).2 he
    exact ⟨_, he, _, hg, _, hp, _, hc, _, hs,
      by rw [hgenerations, hparameters, hsinks, hpropagations, heffects]⟩

theorem decode_eq_ok_iff (d : ModelDeclaration) (v : Json) : decode v = .ok d ↔ d.SpelledBy v :=
  bind_asRecord_eq_ok_iff (by decide) fun _ => ofMembers_eq_ok_iff

def ports (d : ModelDeclaration) : List Port :=
  d.generations.map (·.port) ++ d.parameterSources.map (·.port) ++ d.sinks.map (·.port) ++
    d.propagations.flatMap fun p => [p.input, p.output]

theorem forall_ports {P : Port → Prop} : (∀ port ∈ d.ports, P port) ↔
    ((∀ s ∈ d.generations, P s.port) ∧ (∀ s ∈ d.parameterSources, P s.port) ∧
      (∀ s ∈ d.sinks, P s.port) ∧ ∀ p ∈ d.propagations, P p.input ∧ P p.output) := by
  simp only [ports, List.forall_mem_append, List.forall_mem_map, List.forall_mem_flatMap,
    List.forall_mem_cons, List.not_mem_nil, false_implies, implies_true, and_true, and_assoc]

theorem HeldBy.writable {ms : Members} (h : d.HeldBy ms) : ∀ port ∈ d.ports, port.Writable := by
  have hlist {α : Type} {R : α → Json → Prop} {P : α → Prop} (hP : ∀ a v, R a v → P a)
      {name : String} {as : List α} (h : ms.HasOr name [] (ListOf R) as) : ∀ a ∈ as, P a := by
    rcases h with ⟨_, _, items, _, hitems⟩ | ⟨_, rfl⟩
    · exact ((List.forall₂_and_left _ _).1 (hitems.imp fun a v h => ⟨hP a v h, h⟩)).1
    · exact fun _ h => (List.not_mem_nil h).elim
  exact forall_ports.2 ⟨hlist (fun _ _ h => h.writable) h.generations,
    hlist (fun _ _ h => h.writable) h.parameterSources, hlist (fun _ _ h => h.writable) h.sinks,
    hlist (fun _ _ h => h.writable) h.propagations⟩

theorem heldBy_members (h : ∀ port ∈ d.ports, port.Writable) {ms : Members} (hms : d.members ⊆ ms) :
    d.HeldBy ms := by
  obtain ⟨hgenerations, hparameters, hsinks, hpropagations⟩ := forall_ports.1 h
  have hlist {α : Type} {R : α → Json → Prop} {encode : α → Json} {as : List α}
      (h : ∀ a ∈ as, R a (encode a)) : ListOf R as (.arr (as.map encode)) :=
    ⟨_, rfl, List.forall₂_map_right_iff.2 (List.forall₂_same.2 h)⟩
  exact ⟨.inl ⟨_, hms (by simp [members]), hlist fun s hs =>
        SourceDeclaration.spelledBy_encode (hgenerations s hs)⟩,
    .inl ⟨_, hms (by simp [members]), hlist fun s hs =>
        SourceDeclaration.spelledBy_encode (hparameters s hs)⟩,
    .inl ⟨_, hms (by simp [members]), hlist fun s hs =>
        SinkDeclaration.spelledBy_encode (hsinks s hs)⟩,
    .inl ⟨_, hms (by simp [members]), hlist fun p hp =>
        PropagationDeclaration.spelledBy_encode (hpropagations p hp).1 (hpropagations p hp).2⟩,
    .inl ⟨_, hms (by simp [members]), rfl⟩⟩

theorem spelledBy_encode (h : ∀ port ∈ d.ports, port.Writable) : d.SpelledBy d.encode :=
  ⟨_, .object (by simp [memberNames, members, Members.count]),
    heldBy_members h (List.Subset.refl _)⟩

/-- All that an encoded declaration has for ports are their texts. -/
theorem ports_members (d : ModelDeclaration) : d.members.ports = d.ports.map Port.encode := by
  have hsources (ds : List SourceDeclaration) :
      (ds.map SourceDeclaration.encode).flatMap entryPorts = ds.map fun s => s.port.encode :=
    (List.flatMap_map _ _ _).trans List.map_eq_flatMap.symm
  have hsinks : (d.sinks.map SinkDeclaration.encode).flatMap entryPorts =
      d.sinks.map fun s => s.port.encode :=
    (List.flatMap_map _ _ _).trans List.map_eq_flatMap.symm
  have hpropagations : (d.propagations.map PropagationDeclaration.encode).flatMap entryPorts =
      d.propagations.flatMap fun p => [p.input.encode, p.output.encode] :=
    List.flatMap_map _ _ _
  simp [Members.ports, Members.items, Members.get?, members, ports, hsources, hsinks, hpropagations,
    List.map_flatMap, Function.comp_def]

/-- The members of a declaration in which nothing is lost: they stand for the declaration, and each
port is in the text that stands for it. -/
structure EncodedBy (d : ModelDeclaration) (ms : Members) : Prop where
  held : d.HeldBy ms
  ports : ms.ports = d.ports.map fun port => .str port.render
  canonical : ∀ port ∈ d.ports, Port.parse port.render = .ok port

theorem encodedBy_members (h : ∀ port ∈ d.ports, port.Writable) : d.EncodedBy d.members where
  held := heldBy_members h (List.Subset.refl _)
  ports := ports_members d
  canonical port hport := Port.parse_render (h port hport)

theorem decode_encode (h : ∀ port ∈ d.ports, port.Writable) : decode d.encode = .ok d :=
  (decode_eq_ok_iff d _).2 (spelledBy_encode h)

theorem exists_decode_iff (d : ModelDeclaration) :
    (∃ v, decode v = .ok d) ↔ ∀ port ∈ d.ports, port.Writable := by
  refine ⟨fun ⟨v, h⟩ => ?_, fun h => ⟨_, decode_encode h⟩⟩
  obtain ⟨_, _, h⟩ := (decode_eq_ok_iff d v).1 h
  exact h.writable

end ModelDeclaration

namespace MethodModel

variable {e : MethodModel}

/-- An object that names a method, with members that stand for the declaration beside it. -/
def SpelledBy (e : MethodModel) (v : Json) : Prop :=
  ∃ ms : Members, v = .obj ms ∧
    (∀ name ∈ "method" :: ModelDeclaration.memberNames, ms.count name ≤ 1) ∧
      ms.Has "method" (.str · = ·) e.method ∧ e.model.HeldBy ms

theorem decode_eq_ok_iff (e : MethodModel) (v : Json) : decode v = .ok e ↔ e.SpelledBy v := by
  have hobject {ms : Members} : asObject v = .ok ms ↔ v = .obj ms := by
    cases v with
    | obj ms' => exact pure_eq_ok_iff.trans ⟨congrArg Json.obj, Json.obj.inj⟩
    | _ => exact ⟨fun h => (by cases h), fun h => (by cases h)⟩
  simp only [decode, bind_eq_ok_iff, hobject, pure_eq_ok_iff, needed_eq_ok_iff]
  refine exists_congr fun ms => and_congr_right fun _ => ?_
  constructor
  · rintro ⟨_, hcount, _, hm, method, rfl, model, hd, rfl⟩
    have hcount := refuseRepeated_eq_ok_iff.1 hcount
    obtain ⟨hmethod, hmodel⟩ := List.forall_mem_cons.1 hcount
    exact ⟨hcount, (take?_eq_ok_some_iff asString_eq_ok_iff hmethod _).1 hm,
      (ModelDeclaration.ofMembers_eq_ok_iff hmodel).1 hd⟩
  · rintro ⟨hcount, hm, hd⟩
    obtain ⟨hmethod, hmodel⟩ := List.forall_mem_cons.1 hcount
    exact ⟨(), refuseRepeated_eq_ok_iff.2 hcount, _,
      (take?_eq_ok_some_iff asString_eq_ok_iff hmethod _).2 hm, _, rfl, _,
      (ModelDeclaration.ofMembers_eq_ok_iff hmodel).2 hd, rfl⟩

/-- The name of the method is no member of the declaration beside it. -/
theorem decode_encode (h : ∀ port ∈ e.model.ports, port.Writable) : decode e.encode = .ok e :=
  (decode_eq_ok_iff e _).2 ⟨_, rfl,
    by simp [ModelDeclaration.memberNames, ModelDeclaration.members, Members.count],
    ⟨_, List.mem_cons_self, rfl⟩, ModelDeclaration.heldBy_members h (List.subset_cons_self _ _)⟩

theorem exists_decode_iff (e : MethodModel) :
    (∃ v, decode v = .ok e) ↔ ∀ port ∈ e.model.ports, port.Writable := by
  refine ⟨fun ⟨v, h⟩ => ?_, fun h => ⟨_, decode_encode h⟩⟩
  obtain ⟨_, _, _, _, h⟩ := (decode_eq_ok_iff e v).1 h
  exact h.writable

/-- Exactly the declarations that a value spells are decoded from it, with members that are missing
or unknown and any spelling of the ports, and they are those whose ports can be written at all. Each
of these is decoded again from its encoding, where every port is in the text that stands for it.
From any known kinds the encoding comes to the same model with the same kinds, or to the same
refusal. This holds for declarations and for entries of model files, whose members stand beside the
name of the method. -/
theorem decode_reencoded (t : KindTable) :
    (∀ v d, ModelDeclaration.decode v = .ok d ↔ d.SpelledBy v) ∧
      (∀ v e, decode v = .ok e ↔ e.SpelledBy v) ∧
      (∀ d, (∃ v, ModelDeclaration.decode v = .ok d) ↔ ∀ port ∈ d.ports, port.Writable) ∧
      (∀ e, (∃ v, decode v = .ok e) ↔ ∀ port ∈ e.model.ports, port.Writable) ∧
      (∀ d : ModelDeclaration, (∀ port ∈ d.ports, port.Writable) →
        (∃ ms, d.encode = .obj ms ∧ d.EncodedBy ms) ∧ ModelDeclaration.decode d.encode = .ok d ∧
          (fun d => (Model.ofDeclaration d).runOn t) <$> ModelDeclaration.decode d.encode =
            .ok ((Model.ofDeclaration d).runOn t)) ∧
      ∀ e : MethodModel, (∀ port ∈ e.model.ports, port.Writable) →
        (∃ ms, e.encode = .obj (("method", .str e.method) :: ms) ∧ e.model.EncodedBy ms) ∧
          decode e.encode = .ok e ∧
          (fun e => (Program.declaredModel e.method e.model).runOn t) <$> decode e.encode =
            .ok ((Program.declaredModel e.method e.model).runOn t) := by
  refine ⟨fun v d => ModelDeclaration.decode_eq_ok_iff d v, fun v e => decode_eq_ok_iff e v,
    ModelDeclaration.exists_decode_iff, exists_decode_iff, fun d h => ?_, fun e h => ?_⟩
  · have hdecode := ModelDeclaration.decode_encode h
    exact ⟨⟨_, rfl, ModelDeclaration.encodedBy_members h⟩, hdecode, by rw [hdecode]; rfl⟩
  · have hdecode := decode_encode h
    exact ⟨⟨_, rfl, ModelDeclaration.encodedBy_members h⟩, hdecode, by rw [hdecode]; rfl⟩

/-- A declaration given by an array, and an entry with a member that is not known, come back with
all their members and without the blanks and zeros of a port. -/
theorem decode_reencoded_sink :
    ModelDeclaration.decode (.arr [.arr [], .arr [],
        .arr [.arr [.str "Execution", .str " Argument(00).cmd "]]]) =
      .ok ⟨[], [], [⟨"Execution", ⟨.argument 0, [.field "cmd"]⟩, none, []⟩], [], []⟩ ∧
    ModelDeclaration.decode (.obj [("generations", .arr []), ("parameter_sources", .arr []),
        ("sinks", .arr [.obj [("kind", .str "Execution"), ("port", .str "Argument(0).cmd"),
          ("partial_label", .null), ("features", .arr [])]]),
        ("propagations", .arr []), ("effect_sources", .arr [])]) =
      .ok ⟨[], [], [⟨"Execution", ⟨.argument 0, [.field "cmd"]⟩, none, []⟩], [], []⟩ ∧
    decode (.obj [("note", .bool true), ("method", .str "exec"),
        ("sinks", .arr [.obj [("port", .str " Argument(00).cmd "), ("kind", .str "Execution")]])]) =
      .ok ⟨"exec", [], [], [⟨"Execution", ⟨.argument 0, [.field "cmd"]⟩, none, []⟩], [], []⟩ ∧
    decode (.obj [("method", .str "exec"), ("generations", .arr []), ("parameter_sources", .arr []),
        ("sinks", .arr [.obj [("kind", .str "Execution"), ("port", .str "Argument(0).cmd"),
          ("partial_label", .null), ("features", .arr [])]]),
        ("propagations", .arr []), ("effect_sources", .arr [])]) =
      .ok ⟨"exec", [], [], [⟨"Execution", ⟨.argument 0, [.field "cmd"]⟩, none, []⟩], [], []⟩ := by
  obtain ⟨-, -, hdeclaration, hentry, hreencoded, hreencoded'⟩ := decode_reencoded ∅
  refine ⟨rfl, (hreencoded _ ((hdeclaration _).1 ⟨.arr [.arr [], .arr [], .arr [.arr [
    .str "Execution", .str " Argument(00).cmd "]]], rfl⟩)).2.1, rfl, ?_⟩
  exact (hreencoded' _ ((hentry _).1 ⟨.obj [("method", .str "exec"), ("sinks", .arr [.obj [
    ("port", .str " Argument(00).cmd "), ("kind", .str "Execution")]])], rfl⟩)).2.1

end MethodModel

end TaintFlow
