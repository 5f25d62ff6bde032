import TaintFlow.Proofs.Bounds
import TaintFlow.Proofs.FieldWrites

/-!
Chains of fields, followed and looked up. Following a chain from a location stops at the depth and
at a wildcard; looking a path up in a tree stops at a wildcard and where nothing is listed. In a
tree that is no deeper than the depth both come to the same sources, those at the normal form of the
path (`Node.holds_collect_normalize`, `Location.normalize_fieldPath`). All states that a walk
reaches have such trees, so a sink sees through a register that was read field by field what it sees
at the path.
-/

namespace TaintFlow

variable {depth : Nat}

/-! ### Normal forms -/

namespace Path

variable {path rest rest' : Path}

theorem length_fieldNames {path : Path} (h : .wildcard ∉ path) :
    (TaintTree.fieldNames path).length = path.length := by
  rw [← List.length_map Segment.field, map_fieldNames h]

/-- What is behind a wildcard is cut off. -/
theorem normalize_append_of_wildcard (h : .wildcard ∈ path) (rest : Path) :
    (path ++ rest).normalize depth = path.normalize depth := by
  rw [normalize_eq_take, normalize_eq_take, List.takeWhile_append, if_neg]
  intro hlength
  rw [← (List.takeWhile_prefix _).eq_of_length hlength] at h
  simpa using List.mem_takeWhile_imp h

/-- What is behind fields has the depth that they leave. -/
theorem normalize_append (h : .wildcard ∉ path) (rest : Path) :
    (path ++ rest).normalize depth = path.take depth ++ rest.normalize (depth - path.length) := by
  have hfields : ∀ s ∈ path.take depth, decide (s ≠ .wildcard) = true := fun s hs =>
    decide_eq_true fun hwildcard => h (hwildcard ▸ List.mem_of_mem_take hs)
  rw [normalize, List.take_append, List.takeWhile_append_of_pos hfields, normalize]

theorem normalize_normalize_of_le {kept : Nat} (h : kept ≤ depth) (path : Path) :
    (path.normalize depth).normalize kept = path.normalize kept := by
  rw [normalize, normalize_eq_take, List.take_take, Nat.min_eq_left h, List.take_takeWhile,
    List.takeWhile_takeWhile]
  simp [normalize]

theorem normalize_append_normalize (path rest : Path) (depth : Nat) :
    (path ++ rest.normalize depth).normalize depth = (path ++ rest).normalize depth := by
  by_cases h : .wildcard ∈ path
  · rw [normalize_append_of_wildcard h, normalize_append_of_wildcard h]
  · rw [normalize_append h, normalize_append h, normalize_normalize_of_le (Nat.sub_le _ _)]

end Path

/-! ### Nodes -/

namespace Node

variable {t child : Node} {name : String} {names : List String} {path : Path}

theorem height_child? (h : t.child? name = some child) : child.height + 1 ≤ t.height := by
  induction t with
  | bare fs => cases h
  | field n own rest _ ih =>
    unfold child? at h
    rw [height]
    split at h
    · cases h
      exact Nat.le_max_left _ _
    · exact Nat.le_trans (ih h) (Nat.le_max_right _ _)

theorem height_step {k : Nat} (h : t.height ≤ k + 1) (name : String) (depth : Nat) :
    (t.step name depth).height ≤ k := by
  unfold step
  cases hchild : t.child? name with
  | none => exact Nat.zero_le k
  | some child => exact Nat.le_of_succ_le_succ (Nat.le_trans (height_child? hchild) h)

theorem eq_bare_of_height (h : t.height ≤ 0) : t = bare t.frames := by
  cases t with
  | bare fs => rfl
  | field name child rest => simp [height] at h

/-- Nothing is told apart below the deepest field. -/
theorem holds_cover_of_height (q : FrameSet.Query) (h : t.height ≤ names.length)
    (more : List String) :
    q.holds (t.cover depth (names ++ more)) ↔ q.holds (t.cover depth names) := by
  induction names generalizing t with
  | nil =>
    rw [eq_bare_of_height h, cover_bare, cover_bare, q.holds_below, q.holds_below]
  | cons name names ih =>
    rw [List.cons_append, cover_cons, cover_cons]
    exact ih (height_step h name depth)

/-- A tree that is no deeper than fields are told apart answers at a path as at its normal form. -/
theorem holds_collect_normalize (q : FrameSet.Query) (ht : t.Ordered) (h : t.height ≤ depth) :
    q.holds (t.subtree depth path).collect ↔
      q.holds (t.subtree depth (path.normalize depth)).collect := by
  have hfields := Path.wildcard_not_mem_normalize path depth
  rw [holds_collect_subtree q ht, holds_collect_subtree q ht, Path.fieldsBefore_of_fields hfields]
  obtain ⟨more, hmore, hcut⟩ := path.exists_fieldsBefore depth
  rw [hmore]
  rcases hcut with rfl | hlength
  · rw [List.append_nil]
  · have hdeep : t.height ≤ (TaintTree.fieldNames (path.normalize depth)).length := by
      rwa [Path.length_fieldNames hfields, hlength]
    simp only [List.append_assoc, holds_cover_of_height q hdeep, exists_const]

end Node

/-! ### Locations -/

namespace Location

variable {l : Location}

theorem normalize_field (l : Location) (s : Segment) (rest : Path) (depth : Nat) :
    Path.normalize ((l.field s depth).path ++ rest) depth =
      Path.normalize (l.path ++ s :: rest) depth := by
  unfold field
  split
  · rw [List.append_assoc, List.singleton_append]
  · next h =>
    by_cases hwildcard : .wildcard ∈ l.path
    · rw [Path.normalize_append_of_wildcard hwildcard, Path.normalize_append_of_wildcard hwildcard]
    · -- the depth is used up, and nothing of either rest is kept
      have hfull : depth - l.path.length = 0 := by
        refine Nat.sub_eq_zero_of_le (Nat.not_lt.1 fun hlength => h ⟨hlength, fun hlast => ?_⟩)
        exact hwildcard (List.mem_of_getLast? hlast)
      rw [Path.normalize_append hwildcard, Path.normalize_append hwildcard, hfull]
      simp [Path.normalize]

/-- The location that a chain leads to has the normal form of its path. -/
theorem normalize_fieldPath (l : Location) (path : Path) (depth : Nat) :
    Path.normalize (l.fieldPath path depth).path depth = Path.normalize (l.path ++ path) depth := by
  induction path generalizing l with
  | nil => rw [List.append_nil]; rfl
  | cons s path ih =>
    show Path.normalize ((l.field s depth).fieldPath path depth).path depth = _
    rw [ih, normalize_field]

end Location

theorem Memory.fst_fieldPath (m : Memory) (l : Location) (path : Path) (depth : Nat) :
    (m.fieldPath l path depth).1 = l.fieldPath path depth := by
  induction path generalizing l m with
  | nil => rfl
  | cons s path ih => exact ih _ _

/-! ### States -/

namespace FrameSet

variable {s t : FrameSet}

theorem sources_eq_of_query (h : ∀ q : Query, q.holds s ↔ q.holds t) : s.sources = t.sources :=
  ext_of_passes fun q f => by
    rw [passes_sources, passes_sources]
    exact and_congr_right fun hf => h (.source q f hf)

theorem isEmpty_iff_query : OrdMap.isEmpty s = true ↔ ¬ Query.occupied.holds s := by
  rw [OrdMap.isEmpty_iff]
  show _ ↔ ¬ ∃ f info, s.get? f = some info
  simp only [Option.eq_none_iff_forall_ne_some, not_exists, ne_eq]

end FrameSet

namespace State

variable {s : State} {l : Location} {path : Path}

def Shallow (s : State) (depth : Nat) : Prop := ∀ o, (s.treeOf o).root.height ≤ depth

/-- What is read at a path below a location is what is at the normal form of the whole path. -/
theorem Shallow.query_readAt (hs : s.Shallow depth) (q : FrameSet.Query) (l : Location)
    (path : Path) : q.holds (s.readAt l path depth).collect ↔
      q.holds (s.readAt ⟨l.origin, []⟩ (Path.normalize (l.path ++ path) depth) depth).collect := by
  rw [readAt_eq_subtree, readAt_eq_subtree]
  exact Node.holds_collect_normalize q (s.treeOf l.origin).ordered (hs l.origin)

theorem Shallow.query_fieldPath (hs : s.Shallow depth) (q : FrameSet.Query) (l : Location)
    (path : Path) : q.holds (s.readAt (l.fieldPath path depth) [] depth).collect ↔
      q.holds (s.readAt l path depth).collect := by
  rw [hs.query_readAt q, hs.query_readAt q l, List.append_nil, Location.normalize_fieldPath,
    Location.origin_fieldPath]

theorem Shallow.query_normalize (hs : s.Shallow depth) (q : FrameSet.Query) (l : Location)
    (path : Path) : q.holds (s.readAt l (path.normalize depth) depth).collect ↔
      q.holds (s.readAt l path depth).collect := by
  rw [hs.query_readAt q, hs.query_readAt q l path, Path.normalize_append_normalize]

theorem Fits.shallow {V : Vocabulary} (hs : s.Fits V) (hV : ∀ k, V.level k → k < depth) :
    s.Shallow depth := by
  intro o
  unfold treeOf
  cases htree : s.tree? o with
  | none => exact Nat.zero_le depth
  | some tree =>
    have hheight := Node.Fits.height_le hV (hs.tree o tree htree).2 (Nat.zero_le depth)
    rwa [Nat.zero_add] at hheight

end State

/-! ### Reached states -/

/-- The vocabulary that restricts nothing but the levels. -/
def Vocabulary.ofDepth (depth : Nat) : Vocabulary :=
  ⟨fun _ => True, (· < depth), fun _ => True, fun _ => True⟩

theorem Vocabulary.closed_ofDepth (depth : Nat) : (ofDepth depth).Closed depth where
  level_of_lt := id
  level_pred := Nat.lt_of_succ_lt
  empty := trivial
  join _ _ := trivial
  below _ _ := trivial
  addFeature _ _ := trivial

namespace Walk

variable {w : Walk} {body : Body} {s : State}

theorem fits_ofDepth (w : Walk) (body : Body) :
    w.Fits (.ofDepth w.heuristics.maxFieldDepth) body where
  closed := Vocabulary.closed_ofDepth _
  entry := entry_fits (Vocabulary.closed_ofDepth _) (fun _ _ => trivial) (fun _ _ => trivial)
    fun _ _ => ⟨fun _ _ => trivial, trivial⟩
  origins _ _ := trivial
  fields i _ := Instruction.fits_of_path (fun _ _ _ => trivial) i.2
  callees call _ := by
    cases w.summaries call.2 with
    | obscure => trivial
    | modeled model =>
      exact ⟨fun _ _ => ⟨fun _ _ => trivial, trivial⟩, fun _ _ _ _ => trivial,
        fun _ _ => ⟨fun _ _ => trivial, fun _ _ => trivial, fun _ _ => trivial⟩⟩

/-- A walk reaches no state with a deeper tree. -/
theorem shallow_of_reached (hs : s ∈ w.reached body w.entry ∨ (w.gather body).exit = some s) :
    s.Shallow w.heuristics.maxFieldDepth := by
  have hfits : s.Fits (.ofDepth w.heuristics.maxFieldDepth) :=
    hs.elim ((w.fits_ofDepth body).reached s) ((w.fits_ofDepth body).exit s)
  exact hfits.shallow fun _ => id

/-! ### Chains of reads -/

def runFrom (w : Walk) (position : Nat) : List Instruction → State → State
  | [], s => s
  | instruction :: rest, s => w.runFrom (position + 1) rest (w.apply position instruction s).1

def fieldReads (base : String) : List (String × Segment) → List Instruction
  | [] => []
  | (dest, field) :: steps => .fieldRead dest base field :: fieldReads dest steps

def lastRead (base : String) : List (String × Segment) → String
  | [] => base
  | (dest, _) :: steps => lastRead dest steps

variable {base : String} {steps : List (String × Segment)}

theorem treeOf_fieldReads (position : Nat) (o : Origin) :
    (w.runFrom position (fieldReads base steps) s).treeOf o = s.treeOf o := by
  induction steps generalizing base position s with
  | nil => rfl
  | cons e steps ih => exact ih _

theorem mem_read_fieldReads (position : Nat) {l : Location} :
    l ∈ (w.runFrom position (fieldReads base steps) s).read (lastRead base steps) ↔
      ∃ own ∈ s.read base,
        own.fieldPath (steps.map Prod.snd) w.heuristics.maxFieldDepth = l := by
  induction steps generalizing base position s with
  | nil => exact ⟨fun h => ⟨l, h, rfl⟩, fun ⟨_, hown, heq⟩ => heq ▸ hown⟩
  | cons e steps ih =>
    obtain ⟨dest, field⟩ := e
    show l ∈ (w.runFrom (position + 1) (fieldReads dest steps)
      (w.apply position (.fieldRead dest base field) s).1).read (lastRead dest steps) ↔ _
    have hread : (w.apply position (.fieldRead dest base field) s).1.read dest =
        (s.read base).map (·.field field w.heuristics.maxFieldDepth) := by
      show (s.bind dest _).read dest = _
      rw [State.read_bind, if_pos rfl]
    rw [ih, hread]
    constructor
    · rintro ⟨_, hfield, heq⟩
      obtain ⟨own, hown, rfl⟩ := OrdSet.mem_map.1 hfield
      exact ⟨own, hown, heq⟩
    · rintro ⟨own, hown, heq⟩
      exact ⟨_, OrdSet.mem_map.2 ⟨own, hown, rfl⟩, heq⟩

/-! ### Observations -/

def Observes (w : Walk) (s : State) (position : Nat) (instruction : Instruction) (port : Port)
    (sink : Frame) (sources : FrameSet) : Prop :=
  ∃ o ∈ (w.apply position instruction s).2,
    o.port = port.normalize w.heuristics.maxFieldDepth ∧ o.sink = sink ∧ o.sources = sources

instance (w : Walk) (s : State) (position : Nat) (instruction : Instruction) (port : Port)
    (sink : Frame) (sources : FrameSet) :
    Decidable (w.Observes s position instruction port sink sources) :=
  inferInstanceAs (Decidable (∃ o ∈ _, _))

def HasSink (w : Walk) (callee : String) (port : Port) (sink : Frame) : Prop :=
  ∃ model, w.summaries callee = .modeled model ∧
    ∃ sinks, model.sinks.get? port = some sinks ∧ sinks.Has sink

def reachingAt (w : Walk) (s : State) (position : Nat) (callee : String) (args : List String)
    (port : Port) : FrameSet :=
  (w.callAt position callee args s).reaching w.heuristics s
    (port.normalize w.heuristics.maxFieldDepth)

/-- What reaches a listed sink is observed there, unless it is nothing. -/
theorem observes_iff {position : Nat} {callee : String} {args : List String}
    {result : Option String} {port : Port} {sink : Frame} {sources : FrameSet}
    (h : w.HasSink callee port sink) :
    w.Observes s position (.call callee args result) port sink sources ↔
      FrameSet.Query.occupied.holds (w.reachingAt s position callee args port) ∧
        OrdMap.filter (fun f _ => sink.admits f)
          (w.reachingAt s position callee args port).sources = sources := by
  obtain ⟨model, hmodel, sinks, hsinks, info, hinfo⟩ := h
  have hobserved : (w.apply position (.call callee args result) s).2 =
      (w.callAt position callee args s).observe w.heuristics model s := by
    show ((w.callAt position callee args s).run w.heuristics (w.summaries callee) result s).2 = _
    rw [hmodel]
    rfl
  rw [Observes, hobserved]
  constructor
  · rintro ⟨o, ho, hport, rfl, rfl⟩
    obtain ⟨⟨own, ownSinks⟩, -, ho⟩ := List.mem_flatMap.1 ho
    simp only [Call.observeAt_eq] at ho
    split at ho
    · cases ho
    · next hsome =>
      obtain ⟨e, -, rfl⟩ := List.mem_map.1 ho
      -- the port may be another one, but of the same normal form
      have hport : own.normalize w.heuristics.maxFieldDepth =
          port.normalize w.heuristics.maxFieldDepth := hport
      rw [hport, FrameSet.isEmpty_iff_query, not_not] at hsome
      simp only [hport]
      exact ⟨hsome, rfl⟩
  · rintro ⟨hsome, rfl⟩
    have hnonempty : ¬ OrdMap.isEmpty ((w.callAt position callee args s).reaching w.heuristics s
        (port.normalize w.heuristics.maxFieldDepth)) = true := by
      rwa [FrameSet.isEmpty_iff_query, not_not]
    have hlisted : ∃ o ∈ (w.callAt position callee args s).observeAt w.heuristics s port sinks,
        o.port = port.normalize w.heuristics.maxFieldDepth ∧ o.sink = sink ∧
          o.sources = OrdMap.filter (fun f _ => sink.admits f)
            (w.reachingAt s position callee args port).sources := by
      rw [Call.observeAt_eq, if_neg hnonempty]
      exact ⟨_, List.mem_map.2 ⟨(sink, info), OrdMap.get?_eq_some_iff.1 hinfo, rfl⟩, rfl, rfl, rfl⟩
    obtain ⟨o, ho, htold⟩ := hlisted
    exact ⟨o, List.mem_flatMap.2 ⟨(port, sinks), OrdMap.get?_eq_some_iff.1 hsinks, ho⟩, htold⟩

/-- What reaches a port of an argument is read at the normal form of its path. -/
theorem query_reachingAt (q : FrameSet.Query) {position : Nat} {callee : String}
    {args : List String} {index : Nat} {register : String} (h : args[index]? = some register)
    (path : Path) :
    q.holds (w.reachingAt s position callee args ⟨.argument index, path⟩) ↔
      ∃ l ∈ s.read register, q.holds (s.readAt l (path.normalize w.heuristics.maxFieldDepth)
        w.heuristics.maxFieldDepth).collect := by
  have hargument : (w.callAt position callee args s).argument? (.argument index) =
      some (s.read register) := by
    show (args.map s.read)[index]? = _
    rw [List.getElem?_map, h, Option.map_some]
  rw [reachingAt, Call.reaching, Port.normalize, hargument, Option.map_some, Option.getD_some,
    State.query_readAll]

/-- What reaches an argument through a chain of reads is what reaches the chain at the argument. -/
theorem query_reachingAt_fieldReads (hs : s.Shallow w.heuristics.maxFieldDepth)
    (q : FrameSet.Query) {position position' position'' : Nat} {callee callee' : String}
    {args args' : List String} {i j : Nat} (hi : args[i]? = some (lastRead base steps))
    (hj : args'[j]? = some base) :
    q.holds (w.reachingAt (w.runFrom position'' (fieldReads base steps) s) position callee args
        (.argument i)) ↔
      q.holds (w.reachingAt s position' callee' args' ⟨.argument j, steps.map Prod.snd⟩) := by
  have htaint (l : Location) (path : Path) :
      (w.runFrom position'' (fieldReads base steps) s).readAt l path w.heuristics.maxFieldDepth =
        s.readAt l path w.heuristics.maxFieldDepth := by
    rw [State.readAt_eq_subtree, State.readAt_eq_subtree, treeOf_fieldReads]
  have hnil : Path.normalize [] w.heuristics.maxFieldDepth = [] := Path.normalize_nil _
  rw [Port.argument, query_reachingAt q hi, query_reachingAt q hj]
  simp only [mem_read_fieldReads, htaint, hnil, hs.query_normalize]
  constructor
  · rintro ⟨_, ⟨l, hl, rfl⟩, hread⟩
    exact ⟨l, hl, (hs.query_fieldPath q l _).1 hread⟩
  · rintro ⟨l, hl, hread⟩
    exact ⟨_, ⟨l, hl, rfl⟩, (hs.query_fieldPath q l _).2 hread⟩

/-- Field locations and paths agree in every state that a walk reaches. The same sources are read
at the location that a chain leads to, at the chain below the location that it starts from, and at
the normal form of the whole path below the origin. So a register that was read field by field shows
to a sink what the chain shows to a sink at that path of the argument. -/
theorem reached_fieldPath (w : Walk) (body : Body) (s : State)
    (hs : s ∈ w.reached body w.entry ∨ (w.gather body).exit = some s) :
    let depth := w.heuristics.maxFieldDepth
    (∀ (m : Memory) (l : Location) (path : Path),
      (s.readAt (m.fieldPath l path depth).1 [] depth).collect.sources =
          (s.readAt l path depth).collect.sources ∧
        (s.readAt ⟨l.origin, []⟩ (Path.normalize (l.path ++ path) depth) depth).collect.sources =
          (s.readAt l path depth).collect.sources) ∧
      ∀ (start : Nat) (base : String) (steps : List (String × Segment)),
        let after := w.runFrom start (fieldReads base steps) s
        let register := lastRead base steps
        let path := steps.map Prod.snd
        ∀ callee callee' args args' i j sink,
          args[i]? = some register → w.HasSink callee (.argument i) sink →
          args'[j]? = some base → w.HasSink callee' ⟨.argument j, path⟩ sink →
          ∀ position position' result result' sources,
            w.Observes after position (.call callee args result) (.argument i) sink sources ↔
              w.Observes s position' (.call callee' args' result') ⟨.argument j, path⟩ sink
                sources := by
  intro depth
  have hshallow : s.Shallow depth := shallow_of_reached hs
  refine ⟨fun m l path => ⟨?_, ?_⟩, ?_⟩
  · rw [Memory.fst_fieldPath]
    exact FrameSet.sources_eq_of_query fun q => hshallow.query_fieldPath q l path
  · exact FrameSet.sources_eq_of_query fun q => (hshallow.query_readAt q l path).symm
  · intro start base steps after register path callee callee' args args' i j sink hi hsink hj hsink'
      position position' result result' sources
    have hreaching (q : FrameSet.Query) :
        q.holds (w.reachingAt after position callee args (.argument i)) ↔
          q.holds (w.reachingAt s position' callee' args' ⟨.argument j, path⟩) :=
      query_reachingAt_fieldReads hshallow q hi hj
    rw [observes_iff hsink, observes_iff hsink', hreaching,
      FrameSet.sources_eq_of_query hreaching]

/-- A field of the only parameter is a source, and one callee has a sink at its argument, the other
one at the field of it. -/
def seeding : Walk where
  method := ⟨⟨0⟩, "seeding", ["p"], none,
    some ((∅ : Model).addParameterSource ⟨.argument 0, [.field "a"]⟩ (.ofKind ⟨0⟩) ∅)⟩
  heuristics := {}
  summaries
    | "taking" => .modeled ((∅ : Model).addSink (.argument 0) (.ofKind ⟨1⟩) ∅)
    | _ => .modeled ((∅ : Model).addSink ⟨.argument 0, [.field "a"]⟩ (.ofKind ⟨1⟩) ∅)

theorem reached_fieldPath_seeding :
    seeding.entry ∈ seeding.reached .done seeding.entry ∧
      (seeding.Observes (seeding.runFrom 0 (fieldReads "p" [("x", .field "a")]) seeding.entry) 1
        (.call "taking" ["x"] none) (.argument 0) (.ofKind ⟨1⟩) (.singleton (.ofKind ⟨0⟩) ∅) ↔
      seeding.Observes seeding.entry 0 (.call "looking" ["p"] none)
        ⟨.argument 0, [.field "a"]⟩ (.ofKind ⟨1⟩) (.singleton (.ofKind ⟨0⟩) ∅)) ∧
      seeding.Observes seeding.entry 0 (.call "looking" ["p"] none)
        ⟨.argument 0, [.field "a"]⟩ (.ofKind ⟨1⟩) (.singleton (.ofKind ⟨0⟩) ∅) := by
  have hreached : seeding.entry ∈ seeding.reached .done seeding.entry := List.mem_singleton_self _
  obtain ⟨-, hobserves⟩ := reached_fieldPath seeding .done seeding.entry (.inl hreached)
  refine ⟨hreached, hobserves 0 "p" [("x", .field "a")] "taking" "looking" ["x"] ["p"] 0 0
    (.ofKind ⟨1⟩) rfl ⟨_, rfl, _, rfl, by decide⟩ rfl ⟨_, rfl, _, rfl, by decide⟩ 1 0 none none _,
    ?_⟩
  decide

end Walk

end TaintFlow
