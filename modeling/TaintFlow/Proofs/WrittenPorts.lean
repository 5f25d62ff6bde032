import Mathlib.Data.List.TakeWhile
import TaintFlow.Port

/-!
Ports as texts. A port is written as its root and a dot before each segment, where the index of an
argument is a run of ASCII digits and a segment is not empty and has neither dots nor blanks
(`Port.Written`). A port is read from its written forms, with blanks around them, and from no other
text, and it is read again from the form that `Port.render` writes: `Port.parse_written`.
-/

namespace TaintFlow

namespace Text

variable {cs body : List Char}

def Pads (cs body : List Char) : Prop :=
  ∃ before after, cs = before ++ body ++ after ∧ ∀ c ∈ before ++ after, isBlank c = true

theorem pads_trim (cs : List Char) : Pads cs (trim cs) := by
  have hsplit (cs : List Char) : cs.takeWhile isBlank ++ cs.dropWhile isBlank = cs :=
    List.takeWhile_append_dropWhile
  have hblank (cs : List Char) : ∀ c ∈ cs.takeWhile isBlank, isBlank c = true :=
    List.all_eq_true.1 List.all_takeWhile
  refine ⟨cs.takeWhile isBlank, ((cs.dropWhile isBlank).reverse.takeWhile isBlank).reverse, ?_,
    List.forall_mem_append.2 ⟨hblank cs, fun c hc => hblank _ c (List.mem_reverse.1 hc)⟩⟩
  rw [List.append_assoc, trim, ← List.reverse_append, hsplit, List.reverse_reverse, hsplit]

theorem dropWhile_isBlank (hbody : ∀ c ∈ body, isBlank c = false) :
    body.dropWhile isBlank = body := by
  cases body with
  | nil => rfl
  | cons c body => exact List.dropWhile_cons_of_neg (by simp [hbody c])

/-- A body without blanks is what remains when the blanks around it are taken off. -/
theorem trim_eq_of_pads (h : Pads cs body) (hbody : ∀ c ∈ body, isBlank c = false) :
    trim cs = body := by
  obtain ⟨before, after, rfl, hblank⟩ := h
  obtain ⟨hbefore, hafter⟩ := List.forall_mem_append.1 hblank
  rw [trim, List.append_assoc, List.dropWhile_append_of_pos hbefore]
  cases body with
  | nil =>
    rw [List.nil_append, List.dropWhile_eq_nil_iff.2 hafter]
    rfl
  | cons c body =>
    have hstart : (c :: body ++ after).dropWhile isBlank = c :: body ++ after :=
      List.dropWhile_cons_of_neg (by simp [hbody c])
    have hend : ∀ c' ∈ (c :: body).reverse, isBlank c' = false := fun c' hc' =>
      hbody c' (List.mem_reverse.1 hc')
    rw [hstart, List.reverse_append,
      List.dropWhile_append_of_pos fun c' hc' => hafter c' (List.mem_reverse.1 hc'),
      dropWhile_isBlank hend, List.reverse_reverse]

theorem forall_not_isBlank (h : (cs.all fun c => !isBlank c) = true) :
    ∀ c ∈ cs, isBlank c = false := by
  simpa using h

theorem isDecimalDigit_of_isDigit {c : Char} (h : c.isDigit = true) : isDecimalDigit c = true := by
  have hrange : 48 ≤ c.toNat ∧ c.toNat ≤ 57 := Char.isDigit_iff_toNat.1 h
  simp [isDecimalDigit, inRanges, digitRanges, hrange]

theorem isBlank_of_isDigit {c : Char} (h : c.isDigit = true) : isBlank c = false := by
  have hrange : 48 ≤ c.toNat ∧ c.toNat ≤ 57 := Char.isDigit_iff_toNat.1 h
  simp [isBlank, inRanges, blankRanges]
  omega

end Text

/-! ### Written forms -/

def Segment.IsText (cs : List Char) : Prop := cs ≠ [] ∧ ∀ c ∈ cs, c ≠ '.' ∧ Text.isBlank c = false

/-- A path is written as a dot before each of its segments. -/
def Path.Written (cs : List Char) (path : Path) : Prop :=
  ∃ names : List (List Char), cs = names.flatMap ('.' :: ·) ∧
    (∀ name ∈ names, Segment.IsText name) ∧ path = names.map fun name => .ofName (.ofList name)

/-- A root is written as `Return`, or as `Argument(n)` with a run of ASCII digits for an index below
2^64. -/
inductive Root.Written : List Char → Root → Prop where
  | result : Written "Return".toList .result
  | argument {digits : List Char} (hne : digits ≠ []) (hdigits : ∀ c ∈ digits, c.isDigit = true)
    (hlt : Nat.ofDigitChars 10 digits 0 < Nat.pow 2 64) :
    Written ("Argument(".toList ++ digits ++ [')'])
      (.argument (Nat.ofDigitChars 10 digits 0))

def Port.Written (cs : List Char) (p : Port) : Prop :=
  ∃ root path, cs = root ++ path ∧ Root.Written root p.root ∧ Path.Written path p.path

namespace Port

variable {cs : List Char} {path : Path} {p : Port}

/-! ### Paths -/

theorem splitDots_cons {c : Char} {piece : List Char} {pieces : List (List Char)}
    (h : splitDots cs = piece :: pieces) :
    splitDots (c :: cs) = if c = '.' then [] :: piece :: pieces else (c :: piece) :: pieces := by
  rw [splitDots, h]

/-- The pieces of a text have no dots, and with dots between them they are the text. -/
theorem exists_splitDots (cs : List Char) : ∃ piece pieces, splitDots cs = piece :: pieces ∧
    cs = piece ++ pieces.flatMap ('.' :: ·) ∧ ∀ name ∈ piece :: pieces, '.' ∉ name := by
  induction cs with
  | nil => exact ⟨[], [], rfl, rfl, by simp⟩
  | cons c cs ih =>
    obtain ⟨piece, pieces, hsplit, rfl, hdots⟩ := ih
    rw [splitDots_cons hsplit]
    by_cases hc : c = '.'
    · exact ⟨[], piece :: pieces, if_pos hc, by simp [hc], List.forall_mem_cons.2 ⟨by simp, hdots⟩⟩
    · obtain ⟨hpiece, hpieces⟩ := List.forall_mem_cons.1 hdots
      refine ⟨c :: piece, pieces, if_neg hc, rfl, List.forall_mem_cons.2 ⟨?_, hpieces⟩⟩
      simp [Ne.symm hc, hpiece]

theorem splitDots_append {name rest : List Char} {pieces : List (List Char)} (hname : '.' ∉ name)
    (hrest : splitDots rest = [] :: pieces) : splitDots (name ++ rest) = name :: pieces := by
  induction name with
  | nil => exact hrest
  | cons c name ih =>
    obtain ⟨hc, hname⟩ := not_or.1 (List.mem_cons.not.1 hname)
    rw [List.cons_append, splitDots_cons (ih hname), if_neg (Ne.symm hc)]

theorem splitDots_flatMap {names : List (List Char)} (h : ∀ name ∈ names, '.' ∉ name) :
    splitDots (names.flatMap ('.' :: ·)) = [] :: names := by
  induction names with
  | nil => rfl
  | cons name names ih =>
    obtain ⟨hname, hnames⟩ := List.forall_mem_cons.1 h
    rw [List.flatMap_cons, List.cons_append, splitDots_cons (splitDots_append hname (ih hnames)),
      if_pos rfl]

theorem parsePath?_eq_some_iff : parsePath? cs = some path ↔ Path.Written cs path := by
  have htext (name : List Char) : Segment.IsText name ↔
      '.' ∉ name ∧ (!name.isEmpty && !name.any Text.isBlank) = true := by
    simp only [Segment.IsText, forall_and, Bool.and_eq_true, Bool.not_eq_true', List.any_eq_false,
      Bool.not_eq_true, List.isEmpty_eq_false_iff]
    rw [and_left_comm, List.forall_mem_ne']
  constructor
  · intro h
    obtain ⟨piece, names, hsplit, hcs, hdots⟩ := exists_splitDots cs
    rw [parsePath?, hsplit] at h
    cases piece with
    | cons => cases h
    | nil =>
      simp only [Option.ite_none_right_eq_some, List.all_eq_true, Option.some.injEq] at h
      obtain ⟨hnames, rfl⟩ := h
      exact ⟨names, hcs, fun name hname =>
        (htext name).2 ⟨hdots name (List.mem_cons_of_mem _ hname), hnames name hname⟩, rfl⟩
  · rintro ⟨names, rfl, hnames, rfl⟩
    rw [parsePath?, splitDots_flatMap fun name hname => ((htext name).1 (hnames name hname)).1]
    exact if_pos (List.all_eq_true.2 fun name hname => ((htext name).1 (hnames name hname)).2)

/-! ### Reading -/

theorem after?_eq_some_iff {start : String} {rest : List Char} :
    after? start cs = some rest ↔ cs = start.toList ++ rest := by
  simp only [after?, Option.ite_none_right_eq_some, List.isPrefixOf_iff_prefix, Option.some.injEq,
    ← String.length_toList]
  constructor
  · rintro ⟨⟨rest, rfl⟩, rfl⟩
    rw [List.drop_left]
  · rintro rfl
    exact ⟨List.prefix_append _ _, List.drop_left⟩

/-- A run of digits is read up to the parenthesis. -/
theorem span_digits {digits : List Char} (h : ∀ c ∈ digits, Text.isDecimalDigit c = true)
    (rest : List Char) : (digits ++ ')' :: rest).takeWhile Text.isDecimalDigit = digits ∧
      (digits ++ ')' :: rest).dropWhile Text.isDecimalDigit = ')' :: rest := by
  have hend : ¬ Text.isDecimalDigit ')' = true := by decide
  constructor
  · rw [List.takeWhile_append_of_pos h, List.takeWhile_cons_of_neg hend, List.append_nil]
  · rw [List.dropWhile_append_of_pos h, List.dropWhile_cons_of_neg hend]

theorem split?_return (rest : List Char) :
    split? ("Return".toList ++ rest) = (parsePath? rest).map ((none, ·)) := by
  rw [split?, after?_eq_some_iff.2 rfl]

theorem split?_argument {digits : List Char} (hne : digits ≠ [])
    (hdigits : ∀ c ∈ digits, Text.isDecimalDigit c = true) (rest : List Char) :
    split? ("Argument(".toList ++ digits ++ [')'] ++ rest) =
      (parsePath? rest).map ((some digits, ·)) := by
  have hstart : "Argument(".toList ++ digits ++ [')'] ++ rest =
      "Argument(".toList ++ (digits ++ ')' :: rest) := by simp
  have hreturn : after? "Return" ("Argument(".toList ++ (digits ++ ')' :: rest)) = none := by
    rw [Option.eq_none_iff_forall_ne_some]
    intro rest' h
    simpa using after?_eq_some_iff.1 h
  obtain ⟨htake, hdrop⟩ := span_digits hdigits rest
  have hclose : after? ")" (')' :: rest) = some rest := after?_eq_some_iff.2 rfl
  rw [hstart, split?, hreturn]
  simp only [after?_eq_some_iff.2 rfl, htake, hdrop, hclose, List.isEmpty_iff, hne, if_false, bind,
    pure, Option.bind_some]
  cases parsePath? rest <;> rfl

/-- A root and a path are read from the written forms of both, where the index of an argument may be
any run of decimal digits. -/
theorem split?_eq_some_iff {digits? : Option (List Char)} : split? cs = some (digits?, path) ↔
    ∃ root rest, cs = root ++ rest ∧ Path.Written rest path ∧
      (digits? = none ∧ root = "Return".toList ∨
        ∃ digits, digits? = some digits ∧ root = "Argument(".toList ++ digits ++ [')'] ∧
          digits ≠ [] ∧ ∀ c ∈ digits, Text.isDecimalDigit c = true) := by
  constructor
  · intro h
    unfold split? at h
    split at h
    · next rest hrest =>
      obtain ⟨path, hpath, heq⟩ := Option.map_eq_some_iff.1 h
      cases heq
      exact ⟨_, rest, after?_eq_some_iff.1 hrest, parsePath?_eq_some_iff.1 hpath, .inl ⟨rfl, rfl⟩⟩
    · obtain ⟨rest, hrest, h⟩ := Option.bind_eq_some_iff.1 h
      simp only at h
      split at h
      · cases h
      next hne =>
      obtain ⟨rest', hrest', h⟩ := Option.bind_eq_some_iff.1 h
      obtain ⟨path, hpath, heq⟩ := Option.bind_eq_some_iff.1 h
      cases heq
      have hclose : rest.dropWhile Text.isDecimalDigit = [')'] ++ rest' :=
        after?_eq_some_iff.1 hrest'
      refine ⟨_, rest', ?_, parsePath?_eq_some_iff.1 hpath,
        .inr ⟨rest.takeWhile Text.isDecimalDigit, rfl, rfl, ?_, ?_⟩⟩
      · rw [after?_eq_some_iff.1 hrest, List.append_assoc, List.append_assoc, ← hclose,
          List.takeWhile_append_dropWhile]
      · simpa using hne
      · exact List.all_eq_true.1 List.all_takeWhile
  · rintro ⟨_, rest, rfl, hpath, ⟨rfl, rfl⟩ | ⟨digits, rfl, rfl, hne, hdigits⟩⟩
    · rw [split?_return, parsePath?_eq_some_iff.2 hpath, Option.map_some]
    · rw [split?_argument hne hdigits, parsePath?_eq_some_iff.2 hpath, Option.map_some]

/-- A written form has no blanks. -/
theorem Written.isBlank_eq_false (h : p.Written cs) : ∀ c ∈ cs, Text.isBlank c = false := by
  obtain ⟨root, path⟩ := p
  obtain ⟨start, rest, rfl, hroot, names, rfl, hnames, -⟩ := h
  refine List.forall_mem_append.2 ⟨?_, fun c hc => ?_⟩
  · cases hroot with
    | result => exact Text.forall_not_isBlank (by decide)
    | argument _ hdigits _ =>
      simp only [List.forall_mem_append]
      exact ⟨⟨Text.forall_not_isBlank (by decide),
        fun c hc => Text.isBlank_of_isDigit (hdigits c hc)⟩, Text.forall_not_isBlank (by decide)⟩
  · obtain ⟨name, hname, hc⟩ := List.mem_flatMap.1 hc
    rcases List.mem_cons.1 hc with rfl | hc
    · decide
    · exact ((hnames name hname).2 c hc).2

theorem written_of_parse {text : String} (h : parse text = .ok p) :
    p.Written (Text.trim text.toList) := by
  unfold parse at h
  split at h
  · cases h
  · next path hsplit =>
    cases h
    obtain ⟨root, rest, hcs, hpath, ⟨-, rfl⟩ | ⟨digits, hdigits, -⟩⟩ := split?_eq_some_iff.1 hsplit
    · exact ⟨_, rest, hcs, .result, hpath⟩
    · cases hdigits
  · next digits path hsplit =>
    obtain ⟨root, rest, hcs, hpath, ⟨hnone, -⟩ | ⟨_, heq, rfl, hne, -⟩⟩ :=
      split?_eq_some_iff.1 hsplit
    · cases hnone
    cases heq
    split at h
    · next hindex =>
      cases h
      exact ⟨_, rest, hcs, .argument hne (List.all_eq_true.1 hindex.1) hindex.2, hpath⟩
    · cases h

/-- A written form between blanks is read as the port that it stands for. -/
theorem parse_of_written {text : String} {body : List Char} (hpads : Text.Pads text.toList body)
    (h : p.Written body) : parse text = .ok p := by
  rw [parse, Text.trim_eq_of_pads hpads h.isBlank_eq_false]
  obtain ⟨root, path⟩ := p
  obtain ⟨start, rest, rfl, hroot, hpath⟩ := h
  cases hroot with
  | result =>
    rw [split?_eq_some_iff.2 ⟨_, rest, rfl, hpath, .inl ⟨rfl, rfl⟩⟩]
    rfl
  | argument hne hdigits hlt =>
    have hdecimal := fun c hc => Text.isDecimalDigit_of_isDigit (hdigits c hc)
    rw [split?_eq_some_iff.2 ⟨_, rest, rfl, hpath, .inr ⟨_, rfl, rfl, hne, hdecimal⟩⟩]
    exact if_pos ⟨List.all_eq_true.2 hdigits, hlt⟩

theorem parse_eq_ok_iff {text : String} :
    parse text = .ok p ↔ ∃ body, Text.Pads text.toList body ∧ p.Written body :=
  ⟨fun h => ⟨_, Text.pads_trim _, written_of_parse h⟩,
    fun ⟨_, hpads, h⟩ => parse_of_written hpads h⟩

/-! ### Writing -/

/-- A port that a text can stand for: indices are below 2^64, and the names of fields are texts of
segments, other than the one of the wildcard. -/
structure Writable (p : Port) : Prop where
  index : ∀ index, p.root = .argument index → index < Nat.pow 2 64
  fields : ∀ name, .field name ∈ p.path → Segment.IsText name.toList ∧ name ≠ "*"

theorem Written.writable (h : p.Written cs) : p.Writable := by
  obtain ⟨root, path⟩ := p
  obtain ⟨start, rest, rfl, hroot, names, rfl, hnames, hpath⟩ := h
  constructor
  · rintro index rfl
    cases hroot
    assumption
  · intro name hname
    rw [hpath] at hname
    obtain ⟨cs, hcs, hsegment⟩ := List.mem_map.1 hname
    rw [Segment.ofName] at hsegment
    split at hsegment
    · cases hsegment
    · next hne =>
      cases hsegment
      rw [String.toList_ofList]
      exact ⟨hnames cs hcs, hne⟩

theorem written_root (root : Root) (h : ∀ index, root = .argument index → index < Nat.pow 2 64) :
    Root.Written root.render.toList root := by
  cases root with
  | result => exact .result
  | argument index =>
    have hdigits : ∀ c ∈ Nat.toDigits 10 index, c.isDigit = true := fun c hc =>
      Nat.isDigit_of_mem_toDigits (by decide) (by decide) hc
    have hvalue : Nat.ofDigitChars 10 (Nat.toDigits 10 index) 0 = index :=
      Nat.ofDigitChars_toDigits (by decide) (by decide)
    have hwritten := Root.Written.argument Nat.toDigits_ne_nil hdigits
      (hvalue.symm ▸ h index rfl)
    rw [hvalue] at hwritten
    simpa [Root.render, Nat.toString_eq_repr, Nat.toList_repr] using hwritten

theorem written_path (path : Path)
    (h : ∀ name, .field name ∈ path → Segment.IsText name.toList ∧ name ≠ "*") :
    Path.Written path.render.toList path := by
  have hsegment : ∀ s ∈ path, Segment.IsText s.render.toList ∧ Segment.ofName s.render = s := by
    intro s hs
    cases s with
    | field name => exact ⟨(h name hs).1, if_neg (h name hs).2⟩
    | wildcard =>
      have hblank : Text.isBlank '*' = false := by decide
      exact ⟨⟨by decide, by simp [Segment.render, hblank]⟩, rfl⟩
  refine ⟨path.map fun s => s.render.toList, ?_, ?_, ?_⟩
  · simp [Path.render, String.toList_join, List.flatMap_map]
  · exact List.forall_mem_map.2 fun s hs => (hsegment s hs).1
  · rw [List.map_map]
    refine path.map_id.symm.trans (List.map_congr_left fun s hs => ?_)
    simp [(hsegment s hs).2]

theorem Writable.written (h : p.Writable) : p.Written p.render.toList :=
  ⟨_, _, String.toList_append, written_root p.root h.index, written_path p.path h.fields⟩

/-- What is written for a port is read as the port. -/
theorem parse_render (h : p.Writable) : parse p.render = .ok p :=
  parse_of_written ⟨[], [], (List.append_nil _).symm, nofun⟩ h.written

theorem writable_of_parse {text : String} (h : parse text = .ok p) : p.Writable :=
  (written_of_parse h).writable

/-- A refusal names the text as it was given. -/
theorem of_parse_eq_error {text : String} {e : ConfigError} (h : parse text = .error e) :
    ∃ defect, e = .invalidPort text defect := by
  unfold parse at h
  split at h
  · cases h
    exact ⟨.grammar, rfl⟩
  · cases h
  · split at h
    · cases h
    · cases h
      exact ⟨.indexRange, rfl⟩

/-- A text is read as a port exactly if it is a written form of the port between blanks, and the
refusal of any other text names it. What is written for a port that was read is read as the same
port, and so is what is written for any port that a text can stand for. -/
theorem parse_written (text : String) (p : Port) :
    (parse text = .ok p ↔ ∃ body, Text.Pads text.toList body ∧ p.Written body) ∧
      (∀ e, parse text = .error e → ∃ defect, e = .invalidPort text defect) ∧
      (parse text = .ok p → parse p.render = .ok p) ∧
      (p.Writable → parse p.render = .ok p) :=
  ⟨parse_eq_ok_iff, fun _ => of_parse_eq_error, fun h => parse_render (writable_of_parse h),
    parse_render⟩

/-- Blanks and leading zeros are not written again, and the wildcard is. -/
theorem parse_written_padded :
    parse " Argument(007).items.*\n" = .ok ⟨.argument 7, [.field "items", .wildcard]⟩ ∧
      parse "Argument(7).items.*" = .ok ⟨.argument 7, [.field "items", .wildcard]⟩ :=
  have h : parse " Argument(007).items.*\n" = .ok ⟨.argument 7, [.field "items", .wildcard]⟩ := by
    rfl
  ⟨h, (parse_written _ _).2.2.1 h⟩

-- the index has to be ASCII digits, and a segment must not be empty
example : parse "Argument(٣)" = .error (.invalidPort "Argument(٣)" .indexRange) ∧
    parse "Argument(18446744073709551616)" =
      .error (.invalidPort "Argument(18446744073709551616)" .indexRange) ∧
    parse "Return..a" = .error (.invalidPort "Return..a" .grammar) :=
  ⟨rfl, rfl, rfl⟩

end Port

end TaintFlow
