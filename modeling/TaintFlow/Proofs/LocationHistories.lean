import TaintFlow.Proofs.Arenas

/-!
Histories of arenas. An arena is asked for the locations of parameters and instructions and for what
fields lead to, and the same is asked of a memory, which knows every location by what it is. After
every history the numbers of an arena stand for the locations that the memory has met, in their
order (`Arena.Mirrors`), so that numbers are equal if and only if their roots and paths are:
`Arena.after_located`.
-/

namespace TaintFlow

/-- The path one field further. At `depth` fields, and at a wildcard, there is nothing further. -/
def Path.extend (path : Path) (s : Segment) (depth : Nat) : Path :=
  if path.length < depth ∧ path.getLast? ≠ some .wildcard then path ++ [s] else path

variable {a a' : Arena} {m : Memory} {site : Site} {id id' parent start : LocationId}
  {l : Location} {c : Cell} {s : Segment} {fields : Path} {depth : Nat}

namespace Arena

/-! ### Fields -/

theorem field?_eq_none_iff : a.field? parent s depth = none ↔ a.cell? parent = none :=
  Option.map_eq_none_iff

theorem field?_of_cell? (hc : a.cell? parent = some c) (s : Segment) (depth : Nat) :
    a.field? parent s depth =
      some (if c.path.length < depth ∧ c.path.getLast? ≠ some .wildcard then a.meetField parent c s
        else (parent, a)) := by
  rw [field?, hc]
  rfl

theorem WellFormed.field? (ha : a.WellFormed depth)
    (h : a.field? parent s depth = some (id, a')) : a'.WellFormed depth ∧ a.Extends a' := by
  obtain ⟨c, hc, hresult⟩ := Option.map_eq_some_iff.1 h
  split at hresult
  · next hroom =>
    obtain rfl : (a.meetField parent c s).2 = a' := congrArg Prod.snd hresult
    exact ⟨ha.meetField hc hroom.1 hroom.2 s, extends_meetField hc s⟩
  · cases hresult
    exact ⟨ha, .refl a⟩

theorem fieldPath?_cons (a : Arena) (start : LocationId) (s : Segment) (fields : Path)
    (depth : Nat) : a.fieldPath? start (s :: fields) depth =
      (a.field? start s depth).bind fun r => r.2.fieldPath? r.1 fields depth := rfl

theorem WellFormed.fieldPath? (ha : a.WellFormed depth)
    (h : a.fieldPath? start fields depth = some (id, a')) : a'.WellFormed depth ∧ a.Extends a' := by
  induction fields generalizing a start with
  | nil =>
    cases h
    exact ⟨ha, .refl _⟩
  | cons s fields ih =>
    rw [fieldPath?_cons] at h
    obtain ⟨⟨next, a₁⟩, hnext, hrest⟩ := Option.bind_eq_some_iff.1 h
    obtain ⟨ha₁, hext⟩ := ha.field? hnext
    obtain ⟨ha', hext'⟩ := ih ha₁ hrest
    exact ⟨ha', hext.trans hext'⟩

/-- The answer to a request for a field has the root of the location, and its path one field
further. -/
theorem WellFormed.exists_field? (ha : a.WellFormed depth) (hc : a.cell? parent = some c)
    (s : Segment) : ∃ id a' c', a.field? parent s depth = some (id, a') ∧
      a'.cell? id = some c' ∧ c'.root = c.root ∧ c'.path = c.path.extend s depth := by
  rw [field?_of_cell? hc, Path.extend]
  split
  · cases hfield : c.fields.get? s with
    | some child =>
      obtain ⟨c', hc', hroot, hpath⟩ := ha.field parent c s child hc hfield
      exact ⟨child, a, c', congrArg some (meetField_of_get? hfield), hc', hroot, hpath⟩
    | none =>
      refine ⟨(a.meetField parent c s).1, (a.meetField parent c s).2, ⟨c.root, c.path ++ [s], ∅⟩,
        rfl, ?_, rfl, rfl⟩
      rw [meetField_fst hfield, cell?_meetField hfield hc, if_pos rfl]
  · exact ⟨parent, a, c, rfl, hc, rfl, rfl⟩

theorem WellFormed.exists_fieldPath? (ha : a.WellFormed depth) (hc : a.cell? start = some c)
    (fields : Path) : ∃ id a' c', a.fieldPath? start fields depth = some (id, a') ∧
      a'.cell? id = some c' ∧ c'.root = c.root ∧
        c'.path = fields.foldl (fun path s => Path.extend path s depth) c.path := by
  induction fields generalizing a start c with
  | nil => exact ⟨start, a, c, rfl, hc, rfl, rfl⟩
  | cons s fields ih =>
    obtain ⟨next, a₁, c₁, hnext, hc₁, hroot, hpath⟩ := ha.exists_field? hc s
    obtain ⟨id, a', c', hid, hc', hroot', hpath'⟩ := ih (ha.field? hnext).1 hc₁
    refine ⟨id, a', c', ?_, hc', hroot'.trans hroot, ?_⟩
    · rw [fieldPath?_cons, hnext]
      exact hid
    · rw [hpath', hpath]
      rfl

/-! ### What numbers stand for -/

namespace WellFormed

variable (ha : a.WellFormed depth)

include ha

theorem siteOf?_eq_some_iff : a.siteOf? id = some site ↔ a.known? site = some id := by
  constructor
  · intro h
    obtain ⟨e, he, rfl⟩ := Option.map_eq_some_iff.1 h
    obtain rfl : e.2 = id := by simpa using List.find?_some he
    exact OrdMap.get?_eq_some_iff.2 (List.mem_of_find?_eq_some he)
  · intro h
    cases hfind : a.sites.entries.find? (·.2 = id) with
    | none =>
      have hnone := List.find?_eq_none.1 hfind (site, id) (OrdMap.get?_eq_some_iff.1 h)
      simp at hnone
    | some e =>
      have hid : e.2 = id := by simpa using List.find?_some hfind
      have he : a.known? e.1 = some e.2 :=
        OrdMap.get?_eq_some_iff.2 (List.mem_of_find?_eq_some hfind)
      rw [siteOf?, hfind, ha.apart site e.1 id h (hid ▸ he)]
      rfl

theorem location?_eq_some_iff : a.location? id = some l ↔
    ∃ c, a.cell? id = some c ∧ l.origin.method = a.method ∧
      a.known? l.origin.site = some c.root ∧ l.path = c.path := by
  simp only [location?, Option.bind_eq_bind, Option.bind_eq_some_iff, ha.siteOf?_eq_some_iff]
  refine exists_congr fun c => and_congr_right fun _ => ?_
  constructor
  · rintro ⟨site, hsite, hl⟩
    cases hl
    exact ⟨rfl, hsite, rfl⟩
  · rintro ⟨hmethod, hsite, hpath⟩
    exact ⟨l.origin.site, hsite, by rw [← hmethod, ← hpath]; rfl⟩

/-- Every number of the arena stands for a location, and for no other one. -/
theorem exists_location? (hc : a.cell? id = some c) : ∃ l, a.location? id = some l := by
  obtain ⟨site, hsite⟩ := ha.rooted id c hc
  exact ⟨⟨⟨a.method, site⟩, c.path⟩, ha.location?_eq_some_iff.2 ⟨c, hc, rfl, hsite, rfl⟩⟩

theorem location?_of_extends (h : a.location? id = some l) (hext : a.Extends a')
    (ha' : a'.WellFormed depth) : a'.location? id = some l := by
  obtain ⟨c, hc, hmethod, hsite, hpath⟩ := ha.location?_eq_some_iff.1 h
  obtain ⟨c', hc', hkeeps⟩ := hext.cells id c hc
  refine ha'.location?_eq_some_iff.2 ⟨c', hc', hmethod.trans hext.method.symm, ?_, ?_⟩
  · rw [hkeeps.root]
    exact hext.sites _ _ hsite
  · rw [hkeeps.path, hpath]

end WellFormed

/-- A location that is allocated gets a new number, and all other numbers stand for what they stood
for. -/
theorem WellFormed.location?_of_allocated (ha : a.WellFormed depth) (ha' : a'.WellFormed depth)
    (hext : a.Extends a') (hnext : a'.location? a.next = some l)
    (hback : ∀ id c', a'.cell? id = some c' → id = a.next ∨ ∃ c, a.cell? id = some c)
    (id : LocationId) : a'.location? id = if id = a.next then some l else a.location? id := by
  split
  · next hid => rw [hid, hnext]
  · next hid =>
    cases hl : a.location? id with
    | some own => exact ha.location?_of_extends hl hext ha'
    | none =>
      refine Option.eq_none_iff_forall_ne_some.2 fun own hown => ?_
      obtain ⟨c', hc', -⟩ := ha'.location?_eq_some_iff.1 hown
      obtain ⟨c, hc⟩ := (hback id c' hc').resolve_left hid
      obtain ⟨l, hsome⟩ := ha.exists_location? hc
      rw [hl] at hsome
      cases hsome

end Arena

/-! ### Memories -/

namespace Memory

def located? (m : Memory) (id : LocationId) : Option Location :=
  if id.method = m.method then m.known[id.index]? else none

theorem meet_of_mem (h : l ∈ m.known) : m.meet l = m := if_pos h

theorem meet_of_notMem (h : l ∉ m.known) : m.meet l = { m with known := m.known ++ [l] } := if_neg h

theorem mem_known_iff : l ∈ m.known ↔ ∃ id, m.located? id = some l := by
  constructor
  · intro h
    obtain ⟨i, hi⟩ := List.mem_iff_getElem?.1 h
    exact ⟨⟨m.method, i⟩, (if_pos rfl).trans hi⟩
  · rintro ⟨id, hid⟩
    rw [located?] at hid
    split at hid
    · exact List.mem_of_getElem? hid
    · cases hid

theorem located?_meet (h : l ∉ m.known) (id : LocationId) :
    (m.meet l).located? id = if id = ⟨m.method, m.size⟩ then some l else m.located? id := by
  obtain ⟨method, index⟩ := id
  rw [meet_of_notMem h]
  simp only [located?, size, LocationId.mk.injEq, getElem?_concat]
  by_cases hmethod : method = m.method <;> simp [hmethod]

end Memory

namespace Arena

/-- The numbers of the arena stand for the locations that the memory has met, in their order. -/
structure Mirrors (a : Arena) (m : Memory) : Prop where
  method : m.method = a.method
  size : m.size = a.size
  located : ∀ id, m.located? id = a.location? id

theorem mirrors_new (method : MethodId) : (new method).Mirrors (.new method) where
  method := rfl
  size := rfl
  located id := by
    simp [Memory.located?, location?, cell?, new, Memory.new]

namespace Mirrors

variable (h : a.Mirrors m) (ha : a.WellFormed depth)

include h

theorem mem_known_iff : l ∈ m.known ↔ ∃ id, a.location? id = some l := by
  rw [Memory.mem_known_iff]
  simp only [h.located]

theorem allocate (hnew : l ∉ m.known) (hmethod : a'.method = a.method)
    (hsize : a'.size = a.size + 1)
    (hlocation : ∀ id, a'.location? id = if id = a.next then some l else a.location? id) :
    a'.Mirrors (m.meet l) where
  method := by
    rw [Memory.meet_of_notMem hnew, hmethod, ← h.method]
  size := by
    rw [Memory.meet_of_notMem hnew, hsize, ← h.size]
    simp [Memory.size]
  located id := by
    rw [Memory.located?_meet hnew, hlocation, h.located, h.method, h.size]
    rfl

include ha

/-- The arena allocates the location of a site where the memory meets it for the first time. -/
theorem meet (site : Site) :
    (a.meet site).2.Mirrors (m.meet ⟨⟨m.method, site⟩, []⟩) ∧
      (a.meet site).2.location? (a.meet site).1 = some ⟨⟨m.method, site⟩, []⟩ := by
  cases hknown : a.known? site with
  | some id =>
    obtain ⟨c, hc, hroot, hpath⟩ := ha.site site id hknown
    have hid : a.location? id = some ⟨⟨m.method, site⟩, []⟩ :=
      ha.location?_eq_some_iff.2 ⟨c, hc, h.method, hroot ▸ hknown, hpath.symm⟩
    rw [meet_of_known? hknown, Memory.meet_of_mem (h.mem_known_iff.2 ⟨id, hid⟩)]
    exact ⟨h, hid⟩
  | none =>
    have ha' := ha.meet site
    have hext := extends_meet a site
    have hnext : (a.meet site).2.location? a.next = some ⟨⟨m.method, site⟩, []⟩ := by
      refine ha'.location?_eq_some_iff.2
        ⟨⟨a.next, [], ∅⟩, ?_, h.method.trans hext.method.symm, ?_, rfl⟩
      · rw [cell?_meet hknown, if_pos rfl]
      · rw [known?_meet hknown, if_pos rfl]
    have hnew : ⟨⟨m.method, site⟩, []⟩ ∉ m.known := fun hmem => by
      obtain ⟨id, hid⟩ := h.mem_known_iff.1 hmem
      obtain ⟨c, -, -, hsite, -⟩ := ha.location?_eq_some_iff.1 hid
      rw [hknown] at hsite
      cases hsite
    have hback : ∀ id c', (a.meet site).2.cell? id = some c' →
        id = a.next ∨ ∃ c, a.cell? id = some c := fun id c' hc' =>
      (of_cell?_meet hknown hc').imp And.left fun hc => ⟨c', hc⟩
    refine ⟨h.allocate hnew hext.method ?_ (ha.location?_of_allocated ha' hext hnext hback), ?_⟩
    · simp [Arena.meet, hknown, Arena.allocate, Arena.size]
    · rw [meet_fst hknown, hnext]

omit h in
/-- A field that its parent does not know has no number. -/
theorem location?_ne_of_get? (hc : a.cell? parent = some c) (hfield : c.fields.get? s = none)
    (hsite : a.known? l.origin.site = some c.root) (id : LocationId) :
    a.location? id ≠ some { l with path := c.path ++ [s] } := by
  intro hid
  obtain ⟨d, hd, -, hdsite, hdpath⟩ := ha.location?_eq_some_iff.1 hid
  obtain ⟨own, e, he, heroot, hepath, hefield⟩ := ha.parent id d c.path s hd hdpath.symm
  have hroot : d.root = c.root := Option.some.inj (hdsite.symm.trans hsite)
  obtain rfl := ha.eq_of_path he hc (heroot.trans hroot) hepath
  obtain rfl := Option.some.inj (he.symm.trans hc)
  rw [hfield] at hefield
  cases hefield

/-- The arena allocates the location of a field where the memory meets it for the first time. -/
theorem meetField (hl : a.location? parent = some l) (hc : a.cell? parent = some c)
    (hlength : c.path.length < depth) (hlast : c.path.getLast? ≠ some .wildcard) (s : Segment) :
    (a.meetField parent c s).2.Mirrors (m.meet { l with path := c.path ++ [s] }) ∧
      (a.meetField parent c s).2.location? (a.meetField parent c s).1 =
        some { l with path := c.path ++ [s] } := by
  obtain ⟨own, hown, hmethod, hsite, -⟩ := ha.location?_eq_some_iff.1 hl
  obtain rfl := Option.some.inj (hown.symm.trans hc)
  cases hfield : own.fields.get? s with
  | some child =>
    obtain ⟨c', hc', hroot, hpath⟩ := ha.field parent own s child hc hfield
    have hchild : a.location? child = some { l with path := own.path ++ [s] } :=
      ha.location?_eq_some_iff.2 ⟨c', hc', hmethod, hroot.symm ▸ hsite, hpath.symm⟩
    rw [meetField_of_get? hfield, Memory.meet_of_mem (h.mem_known_iff.2 ⟨child, hchild⟩)]
    exact ⟨h, hchild⟩
  | none =>
    have ha' := ha.meetField hc hlength hlast s
    have hext := extends_meetField hc s
    have hnext : (a.meetField parent own s).2.location? a.next =
        some { l with path := own.path ++ [s] } := by
      refine ha'.location?_eq_some_iff.2 ⟨⟨own.root, own.path ++ [s], ∅⟩, ?_,
        hmethod.trans hext.method.symm, ?_, rfl⟩
      · rw [cell?_meetField hfield hc, if_pos rfl]
      · rw [known?_meetField hfield, hsite]
    have hnew : { l with path := own.path ++ [s] } ∉ m.known := fun hmem => by
      obtain ⟨id, hid⟩ := h.mem_known_iff.1 hmem
      exact location?_ne_of_get? ha hc hfield hsite id hid
    have hback : ∀ id c', (a.meetField parent own s).2.cell? id = some c' →
        id = a.next ∨ ∃ c, a.cell? id = some c := fun id c' hc' =>
      (of_cell?_meetField hfield hc hc').imp And.left fun ⟨d, hd, _⟩ => ⟨d, hd⟩
    refine ⟨h.allocate hnew hext.method ?_ (ha.location?_of_allocated ha' hext hnext hback), ?_⟩
    · simp [Arena.meetField, hfield, link, Arena.allocate, Arena.size]
    · rw [meetField_fst hfield, hnext]

/-- A field is met where there is room for it, and else it is its parent. -/
theorem field? (hl : a.location? parent = some l) (s : Segment) :
    ∃ id a', a.field? parent s depth = some (id, a') ∧ a'.Mirrors (m.field l s depth).2 ∧
      a'.location? id = some (m.field l s depth).1 := by
  obtain ⟨c, hc, -, -, hpath⟩ := ha.location?_eq_some_iff.1 hl
  rw [field?_of_cell? hc, Memory.field, Location.field]
  simp only [hpath]
  split
  · next hroom =>
    obtain ⟨hmirrors, hfield⟩ := h.meetField ha hl hc hroom.1 hroom.2 s
    exact ⟨_, _, rfl, hmirrors, hfield⟩
  · rw [Memory.meet_of_mem (h.mem_known_iff.2 ⟨parent, hl⟩)]
    exact ⟨parent, a, rfl, h, hl⟩

theorem fieldPath? (hl : a.location? start = some l) (fields : Path) :
    ∃ id a', a.fieldPath? start fields depth = some (id, a') ∧
      a'.Mirrors (m.fieldPath l fields depth).2 ∧
      a'.location? id = some (m.fieldPath l fields depth).1 := by
  induction fields generalizing a m start l with
  | nil => exact ⟨start, a, rfl, h, hl⟩
  | cons s fields ih =>
    obtain ⟨next, a₁, hnext, h₁, hl₁⟩ := h.field? ha hl s
    obtain ⟨id, a', hid, h', hl'⟩ := ih h₁ (ha.field? hnext).1 hl₁
    refine ⟨id, a', ?_, h', hl'⟩
    rw [fieldPath?_cons, hnext]
    exact hid

end Mirrors

end Arena

/-! ### Histories -/

/-- What is asked of an arena or a memory; locations are given by their numbers. -/
inductive Memory.Request where
  | parameter (index : Nat)
  | instruction (position : Nat)
  | field (parent : LocationId) (s : Segment)
  | fieldPath (start : LocationId) (fields : Path)

namespace Memory

/-- The location that is asked for, and the memory after the request. There is no answer where a
number is not one of the memory. -/
def answer? (depth : Nat) (m : Memory) : Request → Option (Location × Memory)
  | .parameter index => some (m.parameter index)
  | .instruction position => some (m.instruction position)
  | .field parent s => (m.located? parent).map fun l => m.field l s depth
  | .fieldPath start fields => (m.located? start).map fun l => m.fieldPath l fields depth

/-- A request without an answer leaves the memory as it is. -/
def request (depth : Nat) (m : Memory) (r : Request) : Memory :=
  ((m.answer? depth r).map Prod.snd).getD m

def after (method : MethodId) (depth : Nat) (requests : List Request) : Memory :=
  requests.foldl (request depth) (.new method)

end Memory

namespace Arena

open Memory (Request)

def answer? (depth : Nat) (a : Arena) : Request → Option (LocationId × Arena)
  | .parameter index => some (a.parameter index)
  | .instruction position => some (a.instruction position)
  | .field parent s => a.field? parent s depth
  | .fieldPath start fields => a.fieldPath? start fields depth

def request (depth : Nat) (a : Arena) (r : Request) : Arena :=
  ((a.answer? depth r).map Prod.snd).getD a

def after (method : MethodId) (depth : Nat) (requests : List Request) : Arena :=
  requests.foldl (request depth) (new method)

variable {r : Request} {method : MethodId}

theorem request_of_answer? (h : a.answer? depth r = some (id, a')) : a.request depth r = a' := by
  rw [request, h]
  rfl

theorem after_append (method : MethodId) (depth : Nat) (requests later : List Request) :
    after method depth (requests ++ later) =
      later.foldl (request depth) (after method depth requests) :=
  List.foldl_append

theorem WellFormed.answer? (ha : a.WellFormed depth) (h : a.answer? depth r = some (id, a')) :
    a'.WellFormed depth ∧ a.Extends a' := by
  cases r with
  | parameter index =>
    obtain rfl : (a.meet (.parameter index)).2 = a' := congrArg Prod.snd (Option.some.inj h)
    exact ⟨ha.meet _, extends_meet a _⟩
  | instruction position =>
    obtain rfl : (a.meet (.instruction position)).2 = a' := congrArg Prod.snd (Option.some.inj h)
    exact ⟨ha.meet _, extends_meet a _⟩
  | field parent s => exact ha.field? h
  | fieldPath start fields => exact ha.fieldPath? h

/-- One request keeps an arena well formed, and all that is in it. -/
theorem WellFormed.request (ha : a.WellFormed depth) (r : Request) :
    (a.request depth r).WellFormed depth ∧ a.Extends (a.request depth r) := by
  cases hr : a.answer? depth r with
  | none =>
    rw [Arena.request, hr]
    exact ⟨ha, .refl a⟩
  | some answer =>
    rw [request_of_answer? hr]
    exact ha.answer? hr

theorem WellFormed.foldl_request (ha : a.WellFormed depth) (requests : List Request) :
    (requests.foldl (Arena.request depth) a).WellFormed depth ∧
      a.Extends (requests.foldl (Arena.request depth) a) := by
  induction requests generalizing a with
  | nil => exact ⟨ha, .refl a⟩
  | cons r requests ih =>
    obtain ⟨hnext, hext⟩ := ha.request r
    obtain ⟨hlast, hext'⟩ := ih hnext
    exact ⟨hlast, hext.trans hext'⟩

theorem wellFormed_after (method : MethodId) (depth : Nat) (requests : List Request) :
    (after method depth requests).WellFormed depth :=
  ((wellFormed_new method depth).foldl_request requests).1

/-! ### Arenas and memories -/

namespace Mirrors

variable (h : a.Mirrors m) (ha : a.WellFormed depth)

include h ha

/-- An arena answers with the number of the location that the memory answers with. -/
theorem answer? {m' : Memory} (hr : m.answer? depth r = some (l, m')) :
    ∃ id a', a.answer? depth r = some (id, a') ∧ a'.Mirrors m' ∧ a'.location? id = some l := by
  cases r with
  | parameter index =>
    cases hr
    exact ⟨_, _, rfl, h.meet ha (.parameter index)⟩
  | instruction position =>
    cases hr
    exact ⟨_, _, rfl, h.meet ha (.instruction position)⟩
  | field parent s =>
    obtain ⟨own, hown, hl⟩ := Option.map_eq_some_iff.1 hr
    cases hl
    exact h.field? ha (h.located parent ▸ hown) s
  | fieldPath start fields =>
    obtain ⟨own, hown, hl⟩ := Option.map_eq_some_iff.1 hr
    have hanswer := h.fieldPath? ha (h.located start ▸ hown) fields
    rwa [hl] at hanswer

theorem cell?_eq_none (hid : m.located? id = none) : a.cell? id = none := by
  refine Option.eq_none_iff_forall_ne_some.2 fun c hc => ?_
  obtain ⟨l, hl⟩ := ha.exists_location? hc
  rw [← h.located, hid] at hl
  cases hl

/-- Where the memory has no answer the arena does not change. -/
theorem request_of_answer?_eq_none (hr : m.answer? depth r = none) : a.request depth r = a := by
  cases r with
  | parameter index => cases hr
  | instruction position => cases hr
  | field parent s =>
    have hcell := h.cell?_eq_none ha (Option.map_eq_none_iff.1 hr)
    rw [Arena.request, Arena.answer?, field?_eq_none_iff.2 hcell]
    rfl
  | fieldPath start fields =>
    have hcell := h.cell?_eq_none ha (Option.map_eq_none_iff.1 hr)
    cases fields with
    | nil => rfl
    | cons s fields =>
      rw [Arena.request, Arena.answer?, fieldPath?_cons, field?_eq_none_iff.2 hcell]
      rfl

theorem request (r : Request) : (a.request depth r).Mirrors (m.request depth r) := by
  cases hr : m.answer? depth r with
  | none =>
    rw [h.request_of_answer?_eq_none ha hr, Memory.request, hr]
    exact h
  | some answer =>
    obtain ⟨id, a', hid, h', -⟩ := h.answer? ha hr
    rw [request_of_answer? hid, Memory.request, hr]
    exact h'

end Mirrors

theorem mirrors_after (method : MethodId) (depth : Nat) (requests : List Request) :
    (after method depth requests).Mirrors (.after method depth requests) := by
  induction requests using List.reverseRecOn with
  | nil => exact mirrors_new method
  | append_singleton requests r ih =>
    rw [after, Memory.after, List.foldl_append, List.foldl_append]
    exact ih.request (wellFormed_after method depth requests) r

/-! ### Locations and their numbers -/

/-- Numbers and locations determine one another in an arena. -/
structure Located (a : Arena) (depth : Nat) : Prop where
  eq_iff : ∀ id id' c c', a.cell? id = some c → a.cell? id' = some c' →
    (id = id' ↔ c.root = c'.root ∧ c.path = c'.path)
  roots : ∀ id root, a.root? id = some root → ∃ site, a.known? site = some root
  sites : ∀ site id, a.known? site = some id → a.root? id = some id ∧ a.path? id = some []
  apart : ∀ site site' id, a.known? site = some id → a.known? site' = some id → site = site'
  bounded : ∀ id path, a.path? id = some path → path.length ≤ depth ∧ .wildcard ∉ path.dropLast

theorem WellFormed.located (ha : a.WellFormed depth) : a.Located depth where
  eq_iff id id' c c' hc hc' := by
    refine ⟨?_, fun ⟨hroot, hpath⟩ => ha.eq_of_path hc hc' hroot hpath⟩
    rintro rfl
    obtain rfl := Option.some.inj (hc.symm.trans hc')
    exact ⟨rfl, rfl⟩
  roots id root hroot := by
    obtain ⟨c, hc, rfl⟩ := Option.map_eq_some_iff.1 hroot
    exact ha.rooted id c hc
  sites site id hid := by
    obtain ⟨c, hc, hroot, hpath⟩ := ha.site site id hid
    rw [root?, path?, hc]
    exact ⟨congrArg some hroot, congrArg some hpath⟩
  apart := ha.apart
  bounded id path hpath := by
    obtain ⟨c, hc, rfl⟩ := Option.map_eq_some_iff.1 hpath
    exact ha.bounded id c hc

/-- After every history the numbers of an arena are equal if and only if their roots and paths are.
The roots are the locations of the sites, one for each, with empty paths; no path is longer than
`depth` or goes on below a wildcard. All this stays as it is whatever is asked for later. A location
of a site has the site as its root; that of a field has the root of its parent and the path of the
parent one field further, or is the parent itself where there is nothing further; and that of a
chain of fields is reached field by field. The numbers stand for the locations that a memory meets
in the same history, in the same order, and the arena answers as the memory does. -/
theorem after_located (method : MethodId) (depth : Nat) (requests : List Request) :
    let a := after method depth requests
    let m := Memory.after method depth requests
    a.Located depth ∧
      (∀ later, a.Extends (after method depth (requests ++ later))) ∧
      (∀ r id a', a.answer? depth r = some (id, a') → after method depth (requests ++ [r]) = a') ∧
      (∀ site, (a.meet site).2.known? site = some (a.meet site).1 ∧
        ∀ id, a.known? site = some id → a.meet site = (id, a)) ∧
      (∀ parent root path s, a.root? parent = some root → a.path? parent = some path →
        ∃ id a', a.field? parent s depth = some (id, a') ∧
          if path.length < depth ∧ path.getLast? ≠ some .wildcard then
            a'.root? id = some root ∧ a'.path? id = some (path ++ [s])
          else id = parent ∧ a' = a) ∧
      (∀ start root path fields, a.root? start = some root → a.path? start = some path →
        ∃ id a', a.fieldPath? start fields depth = some (id, a') ∧ a'.root? id = some root ∧
          a'.path? id = some (fields.foldl (fun path s => Path.extend path s depth) path)) ∧
      (∀ id, a.location? id = m.located? id) ∧
      ∀ r l m', m.answer? depth r = some (l, m') →
        ∃ id a', a.answer? depth r = some (id, a') ∧ a'.location? id = some l := by
  intro a m
  have ha : a.WellFormed depth := wellFormed_after method depth requests
  have hm : a.Mirrors m := mirrors_after method depth requests
  have hcell {id root : LocationId} {path : Path} (hroot : a.root? id = some root)
      (hpath : a.path? id = some path) :
      ∃ c, a.cell? id = some c ∧ c.root = root ∧ c.path = path := by
    obtain ⟨c, hc, rfl⟩ := Option.map_eq_some_iff.1 hroot
    rw [path?, hc] at hpath
    exact ⟨c, hc, rfl, Option.some.inj hpath⟩
  refine ⟨ha.located, fun later => ?_, fun r id a' hr => ?_, fun site => ?_,
    fun parent root path s hroot hpath => ?_, fun start root path fields hroot hpath => ?_,
    fun id => (hm.located id).symm, fun r l m' hr => ?_⟩
  · rw [after_append]
    exact (ha.foldl_request later).2
  · rw [after_append]
    exact request_of_answer? hr
  · refine ⟨?_, fun id => meet_of_known?⟩
    cases hknown : a.known? site with
    | some id => rw [meet_of_known? hknown, hknown]
    | none => rw [known?_meet hknown, meet_fst hknown, if_pos rfl]
  · obtain ⟨c, hc, rfl, rfl⟩ := hcell hroot hpath
    obtain ⟨id, a', c', hid, hc', hroot', hpath'⟩ := ha.exists_field? hc s
    refine ⟨id, a', hid, ?_⟩
    split
    · next hroom =>
      rw [Path.extend, if_pos hroom] at hpath'
      rw [root?, Arena.path?, hc']
      exact ⟨congrArg some hroot', congrArg some hpath'⟩
    · next hfull =>
      rw [field?_of_cell? hc, if_neg hfull] at hid
      cases hid
      exact ⟨rfl, rfl⟩
  · obtain ⟨c, hc, rfl, rfl⟩ := hcell hroot hpath
    obtain ⟨id, a', c', hid, hc', hroot', hpath'⟩ := ha.exists_fieldPath? hc fields
    refine ⟨id, a', hid, ?_⟩
    rw [root?, Arena.path?, hc']
    exact ⟨congrArg some hroot', congrArg some hpath'⟩
  · obtain ⟨id, a', hid, -, hl⟩ := hm.answer? ha hr
    exact ⟨id, a', hid, hl⟩

/-- Asks for a parameter, an instruction, three fields below the parameter, all fields of the
instruction, a field of a location of another method, and the parameter again. -/
def boxRequests : List Request :=
  [.parameter 0, .instruction 3, .fieldPath ⟨⟨0⟩, 0⟩ [.field "a", .field "b", .field "c"],
    .field ⟨⟨0⟩, 1⟩ .wildcard, .field ⟨⟨1⟩, 0⟩ (.field "a"), .parameter 0]

/-- Two fields are as deep as locations go here, and only the fourth location is there. -/
theorem after_located_boxRequests :
    (after ⟨0⟩ 2 boxRequests).size = 5 ∧
      (after ⟨0⟩ 2 boxRequests).path? ⟨⟨0⟩, 4⟩ = some [.wildcard] ∧
      ∀ id c, (after ⟨0⟩ 2 boxRequests).cell? id = some c → c.root = ⟨⟨0⟩, 0⟩ →
        c.path = [.field "a", .field "b"] → id = ⟨⟨0⟩, 3⟩ := by
  refine ⟨by decide, by decide, fun id c hc hroot hpath => ?_⟩
  have hbox : (after ⟨0⟩ 2 boxRequests).cell? ⟨⟨0⟩, 3⟩ =
      some ⟨⟨⟨0⟩, 0⟩, [.field "a", .field "b"], ∅⟩ := by
    decide
  obtain ⟨hlocated, -⟩ := after_located ⟨0⟩ 2 boxRequests
  exact (hlocated.eq_iff id ⟨⟨0⟩, 3⟩ c _ hc hbox).2 ⟨hroot, hpath⟩

end Arena

end TaintFlow
