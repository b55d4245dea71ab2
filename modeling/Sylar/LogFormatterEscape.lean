import Sylar.LogFormatterGrammar

/-! Patterns in which each `%` of a text is doubled. The scanner looks at the next character for the second
`%`, but goes on behind the first. -/

namespace Sylar
namespace LogFormatter

/-- The text with each `%` doubled. -/
def escape (s : List Char) : List Char := s.flatMap fun c => if c = '%' then ['%', '%'] else [c]

@[simp] theorem escape_nil : escape [] = [] := rfl

@[simp] theorem escape_percent (s : List Char) : escape ('%' :: s) = '%' :: '%' :: escape s := rfl

theorem escape_cons {c : Char} (other : c ≠ '%') (s : List Char) : escape (c :: s) = c :: escape s := by
  rw [escape, List.flatMap_cons, if_neg other]
  rfl

theorem escape_append (s t : List Char) : escape (s ++ t) = escape s ++ escape t := List.flatMap_append

theorem escape_of_plain {s : List Char} (plain : '%' ∉ s) : escape s = s := by
  induction s with
  | nil => rfl
  | cons c s ih =>
    rw [List.mem_cons, not_or] at plain
    rw [escape_cons (Ne.symm plain.1), ih plain.2]

/-- A character other than `%` separates the escaped text where it separates the text. -/
theorem escape_split {t a b : List Char} {c : Char} (other : c ≠ '%') (whole : escape t = a ++ c :: b) :
    ∃ f r, t = f ++ c :: r ∧ escape f = a ∧ escape r = b := by
  induction t generalizing a with
  | nil => simp at whole
  | cons e t ih =>
    by_cases percent : e = '%'
    · subst percent
      rw [escape_percent] at whole
      cases a with
      | nil => exact absurd (List.cons.inj whole).1.symm other
      | cons a₀ a =>
        obtain ⟨first, whole⟩ := List.cons.inj whole
        cases a with
        | nil => exact absurd (List.cons.inj whole).1.symm other
        | cons a₁ a =>
          obtain ⟨second, whole⟩ := List.cons.inj whole
          obtain ⟨f, r, rfl, left, right⟩ := ih whole
          exact ⟨'%' :: f, r, rfl, by rw [escape_percent, left, ← first, ← second], right⟩
    · rw [escape_cons percent] at whole
      cases a with
      | nil =>
        obtain ⟨same, whole⟩ := List.cons.inj whole
        exact ⟨[], t, by rw [same]; rfl, rfl, whole⟩
      | cons a₀ a =>
        obtain ⟨first, whole⟩ := List.cons.inj whole
        obtain ⟨f, r, rfl, left, right⟩ := ih whole
        exact ⟨e :: f, r, rfl, by rw [escape_cons percent, left, first], right⟩

theorem escape_eq_nil {s : List Char} (empty : escape s = []) : s = [] := by
  cases s with
  | nil => rfl
  | cons c s =>
    by_cases percent : c = '%'
    · subst percent
      cases empty
    · rw [escape_cons percent] at empty
      cases empty

theorem cons_of_escape {t b : List Char} {c : Char} (other : c ≠ '%') (whole : escape t = c :: b) :
    ∃ r, t = c :: r ∧ escape r = b := by
  obtain ⟨f, r, rfl, left, right⟩ := escape_split (a := []) other whole
  rw [escape_eq_nil left]
  exact ⟨r, rfl, right⟩

/-- What `strftime` with a buffer of 64 bytes is known to do: the format of a date without one gives a year
first, `%%` stands for `%`, and what does not fit is not written, and it returns 0. -/
structure Documented (strftime : String → Nat → Option String) : Prop where
  year : ∃ c rest, strftime "%Y-%m-%d %H:%M:%S" 0 = some (String.ofList (c :: rest)) ∧ c.isDigit = true
  copies : ∀ f time, f.length < 64 → '\x00' ∉ f → (∀ c ∈ f, c.toNat < 128) →
    strftime (String.ofList (escape f)) time = some (String.ofList f)
  full : ∀ f time, 64 ≤ f.length → '\x00' ∉ f → (∀ c ∈ f, c.toNat < 128) →
    strftime (String.ofList (escape f)) time = none

/-- What is written for a date: what stands in the buffer when `strftime` has not filled it is not known. -/
def dated (strftime : String → Nat → Option String) (buf fmt : String) (time : Nat) : String :=
  (strftime fmt time).getD buf

/-- The escaped text is a pattern for the text, and between two directives with braces it leaves these as
they are. -/
def Escapes (strftime : String → Nat → Option String) (s : String) : Prop :=
  (new (String.ofList (escape s.toList))).m_error = false ∧
  (∀ buf level event, (new (String.ofList (escape s.toList))).format (dated strftime buf) level event = s) ∧
  ∀ x fx (closedX : '}' ∉ fx) y fy (closedY : '}' ∉ fy),
    init (String.ofList ((Segment.braced x fx closedX).render ++ escape s.toList ++
        (Segment.braced y fy closedY).render)) =
      (x.item (String.ofList fx) :: (new (String.ofList (escape s.toList))).m_items ++ [y.item (String.ofList fy)],
        false)

section
variable (strftime : String → Nat → String) (level : LogLevel) (event : LogEvent)

/-- What the entries of `vec` are written as. -/
def written (vec : List Part) : List Char :=
  vec.flatMap fun part => ((item part).1.format strftime level event).toList

theorem foldl_format (items : List FormatItem) (ss : String) :
    (items.foldl (fun ss i => ss ++ i.format strftime level event) ss).toList =
      ss.toList ++ items.flatMap fun i => (i.format strftime level event).toList := by
  induction items generalizing ss with
  | nil => rw [List.foldl_nil, List.flatMap_nil, List.append_nil]
  | cons i items ih => rw [List.foldl_cons, ih, String.toList_append, List.flatMap_cons, List.append_assoc]

theorem format_new (pattern : List Char) :
    ((new (String.ofList pattern)).format strftime level event).toList =
      written strftime level event (scan [] 0 pattern).1 := by
  have items : (new (String.ofList pattern)).m_items = (scan [] 0 pattern).1.map fun part => (item part).1 := by
    simp only [new, init, String.toList_ofList]
  rw [LogFormatter.format, items, foldl_format, List.flatMap_map]
  rfl

theorem error_new (pattern : List Char) : (new (String.ofList pattern)).m_error =
    ((scan [] 0 pattern).2 || (scan [] 0 pattern).1.any fun part => (item part).2) := by
  simp only [new, init, String.toList_ofList]

theorem written_flush (nstr : List Char) : written strftime level event (flush nstr) = nstr := by
  by_cases empty : nstr = []
  · subst empty
    rfl
  · rw [flush, if_neg empty, written, List.flatMap_cons, List.flatMap_nil, List.append_nil]
    exact String.toList_ofList

/-- The text that has been collected is written first. -/
theorem written_scan {nstr rest : List Char} {skip : Nat} (clean : (scan nstr skip rest).2 = false) :
    ∃ more, written strftime level event (scan nstr skip rest).1 = nstr ++ more := by
  induction rest generalizing nstr skip with
  | nil =>
    refine ⟨[], ?_⟩
    cases skip <;> rw [scan, written_flush, List.append_nil]
  | cons c rest ih =>
    cases skip with
    | succ skip => exact ih clean
    | zero =>
      by_cases percent : c = '%'
      · subst percent
        by_cases twice : rest.head? = some '%'
        · have goes : scan nstr 0 ('%' :: rest) = scan (nstr ++ ['%']) 0 rest := by simp [scan, twice]
          rw [goes] at clean ⊢
          obtain ⟨more, starts⟩ := ih clean
          exact ⟨'%' :: more, by rw [starts, List.append_assoc, List.singleton_append]⟩
        · by_cases status : (directive [] none [] rest).fmt_status = 0
          · rw [scan_directive twice rfl status, written, List.flatMap_append]
            exact ⟨_, congrArg (· ++ _) (written_flush strftime level event nstr)⟩
          · simp [scan, twice, status] at clean
      · have goes : scan nstr 0 (c :: rest) = scan (nstr ++ [c]) 0 rest := by simp [scan, percent]
        rw [goes] at clean ⊢
        obtain ⟨more, starts⟩ := ih clean
        exact ⟨c :: more, by rw [starts, List.append_assoc, List.singleton_append]⟩

theorem scan_plain {run : List Char} (plain : '%' ∉ run) : scan [] 0 run = (flush run, false) := by
  have read := scan_text plain [] []
  rw [List.append_nil, List.nil_append] at read
  rw [read]
  rfl

theorem scan_twice (nstr rest : List Char) :
    scan nstr 0 ('%' :: '%' :: rest) = scan (nstr ++ ['%']) 0 ('%' :: rest) := by
  rw [scan, if_neg (fun other => other rfl), if_pos List.head?_cons]

/-- Behind the first `%` of the text the scanner is at the second one of the pattern. -/
theorem scan_escape {run : List Char} (plain : '%' ∉ run) (t : List Char) :
    scan [] 0 (escape (run ++ '%' :: t)) = scan (run ++ ['%']) 0 ('%' :: escape t) := by
  rw [escape_append, escape_of_plain plain, escape_percent, scan_text plain, List.nil_append, scan_twice]

/-- Of the doubled `%` all but the last are collected. -/
theorem scan_percents (nstr : List Char) (j : Nat) (u : List Char) :
    scan nstr 0 ('%' :: escape (List.replicate j '%' ++ u)) =
      scan (nstr ++ List.replicate (2 * j) '%') 0 ('%' :: escape u) := by
  induction j generalizing nstr with
  | zero => exact congrArg (scan · 0 ('%' :: escape u)) (List.append_nil nstr).symm
  | succ j ih =>
    have two : List.replicate (2 * (j + 1)) '%' = '%' :: '%' :: List.replicate (2 * j) '%' := rfl
    rw [List.replicate_succ, List.cons_append, escape_percent, scan_twice, scan_twice, ih, two]
    simp only [List.append_assoc, List.cons_append, List.nil_append]

/-- The first `%` that is written stands where it stands in the text. -/
theorem idxOf_written {r : List Char} (clean : (scan [] 0 (escape r)).2 = false) :
    (written strftime level event (scan [] 0 (escape r)).1).idxOf '%' = r.idxOf '%' := by
  by_cases there : '%' ∈ r
  · obtain ⟨run, t, rfl, plain⟩ := List.eq_append_cons_of_mem there
    rw [scan_escape plain] at clean ⊢
    obtain ⟨more, starts⟩ := written_scan strftime level event clean
    rw [starts, List.append_assoc, List.singleton_append, List.idxOf_append_of_notMem plain,
      List.idxOf_append_of_notMem plain, List.idxOf_cons_self, List.idxOf_cons_self]
  · rw [escape_of_plain there, scan_plain there, written_flush]

end

/-- The segments of a text without `%`. -/
def plainText (run : List Char) (plain : '%' ∉ run) : List Segment :=
  if nonempty : run = [] then [] else [.text run nonempty plain]

theorem grammar_plainText {run : List Char} (plain : '%' ∉ run) {rest : List Segment} (grammar : Grammar rest)
    (maximal : ∀ s ∈ rest.head?, s.isText = false) :
    Grammar (plainText run plain ++ rest) ∧ render (plainText run plain ++ rest) = run ++ render rest := by
  by_cases empty : run = []
  · rw [plainText, dif_pos empty, List.nil_append, empty]
    exact ⟨grammar, rfl⟩
  · rw [plainText, dif_neg empty, List.singleton_append]
    exact ⟨.text maximal grammar, rfl⟩

/-- Text without `%` is a pattern for itself. -/
theorem escapes_of_plain (strftime : String → Nat → Option String) {s : String} (plain : '%' ∉ s.toList) :
    Escapes strftime s := by
  obtain ⟨alone, text⟩ := grammar_plainText plain .nil nofun
  rw [List.append_nil] at alone
  have parses : Parses s (plainText s.toList plain) := by
    refine ⟨alone, ?_⟩
    rw [List.append_nil] at text
    exact text.trans (List.append_nil _)
  rw [Escapes, escape_of_plain plain, String.ofList_toList]
  refine ⟨congrArg Prod.snd parses.init, fun buf level event => ?_, fun x fx closedX y fy closedY => ?_⟩
  · have shown := format_new (dated strftime buf) level event s.toList
    rw [String.ofList_toList, scan_plain plain, written_flush] at shown
    exact String.toList_injective shown
  · have last : Grammar [.braced y fy closedY] := .braced .nil
    obtain ⟨inner, middle⟩ := grammar_plainText plain last fun s member => by cases member; rfl
    have whole : Parses (String.ofList ((Segment.braced x fx closedX).render ++ s.toList ++
        (Segment.braced y fy closedY).render))
        (.braced x fx closedX :: (plainText s.toList plain ++ [.braced y fy closedY])) := by
      refine ⟨.braced inner, ?_⟩
      rw [render_cons, middle, String.toList_ofList, List.append_assoc, render_cons]
      exact congrArg _ (congrArg _ (List.append_nil _))
    have items : (new s).m_items = (plainText s.toList plain).map Segment.item := congrArg Prod.fst parses.init
    rw [whole.init, items, List.map_cons, List.map_append, List.map_singleton]
    rfl

/-- An event of which no field begins with a letter. -/
def blankEvent : LogEvent where
  m_file := "\n"
  m_line := 0
  m_elapse := 0
  m_threadId := 0
  m_fiberId := 0
  m_time := 0
  m_content := "\n"
  m_loggerName := "\n"
  m_threadName := "\n"

/-- No directive but the date with a format of its own can write its own letter first. -/
theorem format_ne_char {strftime : String → Nat → Option String} (documented : Documented strftime) (x : Letter)
    (fmt : String) (bare : x = .d → fmt = "") :
    ∃ text c out, (x.item fmt).format (dated strftime "\n") .DEBUG blankEvent = text ∧ text.toList = c :: out ∧
      c ≠ x.char := by
  cases x with
  | d =>
    obtain ⟨c, out, year, digit⟩ := documented.year
    rw [bare rfl]
    refine ⟨String.ofList (c :: out), c, out, ?_, String.toList_ofList, fun same => absurd (same ▸ digit) (by decide)⟩
    have shown : (Letter.d.item "").format (dated strftime "\n") .DEBUG blankEvent =
        dated strftime "\n" "%Y-%m-%d %H:%M:%S" 0 := rfl
    rw [shown, dated, year, Option.getD_some]
  | p => exact ⟨"DEBUG", 'D', _, rfl, rfl, by decide⟩
  | T => exact ⟨"\t", '\t', [], rfl, rfl, by decide⟩
  | m => exact ⟨"\n", '\n', [], rfl, rfl, by decide⟩
  | c => exact ⟨"\n", '\n', [], rfl, rfl, by decide⟩
  | n => exact ⟨"\n", '\n', [], rfl, rfl, by decide⟩
  | f => exact ⟨"\n", '\n', [], rfl, rfl, by decide⟩
  | N => exact ⟨"\n", '\n', [], rfl, rfl, by decide⟩
  | r => exact ⟨"0", '0', [], rfl, rfl, by decide⟩
  | t => exact ⟨"0", '0', [], rfl, rfl, by decide⟩
  | l => exact ⟨"0", '0', [], rfl, rfl, by decide⟩
  | F => exact ⟨"0", '0', [], rfl, rfl, by decide⟩

theorem exists_run (t : List Char) : ∃ j u, t = List.replicate j '%' ++ u ∧ u.head? ≠ some '%' := by
  induction t with
  | nil => exact ⟨0, [], rfl, nofun⟩
  | cons c t ih =>
    by_cases percent : c = '%'
    · obtain ⟨j, u, rfl, ends⟩ := ih
      exact ⟨j + 1, u, by rw [percent]; rfl, ends⟩
    · exact ⟨0, c :: t, rfl, fun same => percent (Option.some.inj same)⟩

theorem head_escape {u : List Char} (ends : u.head? ≠ some '%') : (escape u).head? ≠ some '%' := by
  cases u with
  | nil => nofun
  | cons c u =>
    have other : c ≠ '%' := fun same => ends (by rw [same]; rfl)
    rw [escape_cons other]
    exact fun same => other (Option.some.inj same)

/-- What a text is written as whose format is part of it: the first `%` would have to stand in two places. -/
theorem ne_of_format {f r out : List Char} (first : out.idxOf '%' = r.idxOf '%') :
    f ++ out ≠ 'd' :: '{' :: (f ++ '}' :: r) := by
  intro same
  have places := congrArg (List.idxOf '%') same
  rw [List.idxOf_cons_ne _ (by decide), List.idxOf_cons_ne _ (by decide)] at places
  by_cases inside : '%' ∈ f
  · rw [List.idxOf_append_of_mem inside, List.idxOf_append_of_mem inside] at places
    omega
  · rw [List.idxOf_append_of_notMem inside, List.idxOf_append_of_notMem inside, first,
      List.idxOf_cons_ne _ (by decide)] at places
    omega

/-- A date with an escaped format of its own is not written as the directive stands in the text. -/
theorem ne_of_date {strftime : String → Nat → Option String} (documented : Documented strftime) {f r out : List Char}
    (nonempty : escape f ≠ []) (ascii : ∀ c ∈ f, c.toNat < 128 ∧ c ≠ '\x00') (first : out.idxOf '%' = r.idxOf '%') :
    ((Letter.d.item (String.ofList (escape f))).format (dated strftime "\n") .DEBUG blankEvent).toList ++ out ≠
      'd' :: '{' :: (f ++ '}' :: r) := by
  have own : (String.ofList (escape f)).isEmpty = false := by
    rw [Bool.eq_false_iff]
    intro empty
    exact nonempty (by simpa using congrArg String.toList (String.isEmpty_iff.mp empty))
  have shown : (Letter.d.item (String.ofList (escape f))).format (dated strftime "\n") .DEBUG blankEvent =
      dated strftime "\n" (String.ofList (escape f)) 0 := by
    simp only [Letter.item, FormatItem.dateTime, own, FormatItem.format, Bool.false_eq_true, if_false]
    rfl
  have plain : '\x00' ∉ f := fun member => (ascii _ member).2 rfl
  rw [shown, dated]
  rcases Nat.lt_or_ge f.length 64 with fits | longer
  · rw [documented.copies f 0 fits plain fun c member => (ascii c member).1, Option.getD_some, String.toList_ofList]
    exact ne_of_format first
  · rw [documented.full f 0 longer plain fun c member => (ascii c member).1, Option.getD_none]
    intro same
    exact absurd (List.cons.inj same).1 (by decide)

/-- A single `%` in front of what the scanner then takes for a directive: this is written in its place. -/
theorem ne_of_directive {strftime : String → Nat → Option String} (documented : Documented strftime)
    {nstr u : List Char} (ascii : ∀ c ∈ u, c.toNat < 128 ∧ c ≠ '\x00') (ends : u.head? ≠ some '%')
    (clean : (scan nstr 0 ('%' :: escape u)).2 = false)
    (known : ∀ part ∈ (scan nstr 0 ('%' :: escape u)).1, (item part).2 = false) :
    written (dated strftime "\n") .DEBUG blankEvent (scan nstr 0 ('%' :: escape u)).1 ≠ nstr ++ u := by
  by_cases status : (directive [] none [] (escape u)).fmt_status = 0
  · rw [scan_directive (head_escape ends) rfl status] at clean known ⊢
    have letter : ∃ x : Letter, (directive [] none [] (escape u)).str = [x.char] := by
      have own := known _ (List.mem_append_right _ List.mem_cons_self)
      cases made : s_format_items.lookup (directive [] none [] (escape u)).str with
      | none => simp [item, made] at own
      | some make => exact char_of_lookup made
    obtain ⟨x, name⟩ := letter
    rw [written, List.flatMap_append, List.flatMap_cons]
    intro same
    have behind := List.append_cancel_left ((congrArg (· ++ _) (written_flush ..).symm).trans same)
    -- the letter stands in the text where the item is written
    have apart : ∀ fmt, (x = .d → fmt = "") → ∀ tail, escape u = x.char :: tail → ∀ out,
        ((x.item fmt).format (dated strftime "\n") .DEBUG blankEvent).toList ++ out ≠ u := by
      intro fmt bare tail whole out same
      obtain ⟨r, rfl, -⟩ := cons_of_escape (char_ne_percent x) whole
      obtain ⟨text, c, more, shown, starts, other⟩ := format_ne_char documented x fmt bare
      rw [shown, starts] at same
      exact other (List.cons.inj same).1
    obtain ⟨read, tail, ⟨whole, -, found⟩ | ⟨fmt, closed, whole, found⟩⟩ := directive_cases status (by simp)
    · have named : read = [x.char] := by rw [← name, found, List.nil_append]
      subst named
      have made : item ⟨[x.char], [], 1⟩ = (x.item "", false) := Segment.item_part (.bare x)
      simp only [found, List.nil_append, made] at behind
      exact apart "" (fun _ => rfl) tail whole _ behind
    · have named : read = [x.char] := by rw [← name, found, List.nil_append]
      subst named
      have made : item ⟨[x.char], fmt, 1⟩ = (x.item (String.ofList fmt), false) :=
        Segment.item_part (.braced x fmt closed)
      have left : (escape u).drop (directive [] none [] (escape u)).n = tail := by
        rw [found, whole]
        simp [List.drop_append, Nat.add_assoc, Nat.add_comm]
      rw [left] at behind clean
      simp only [found, List.nil_append, made] at behind
      by_cases own : x = .d ∧ fmt ≠ []
      · obtain ⟨rfl, nonempty⟩ := own
        obtain ⟨r₁, rfl, whole₁⟩ := cons_of_escape (by decide) whole
        obtain ⟨r₂, rfl, whole₂⟩ := cons_of_escape (by decide) whole₁
        obtain ⟨f, r, rfl, rfl, rfl⟩ := escape_split (by decide) whole₂
        have inner : ∀ c ∈ f, c.toNat < 128 ∧ c ≠ '\x00' := fun c member => ascii c (by simp [member])
        exact ne_of_date documented nonempty inner (idxOf_written _ _ _ clean) behind
      · refine apart (String.ofList fmt) (fun date => ?_) _ whole _ behind
        have empty : fmt = [] := by
          by_contra nonempty
          exact own ⟨date, nonempty⟩
        rw [empty]
  · simp [scan, head_escape ends, status] at clean

/-- The escaped text is a pattern for the text exactly when there was nothing to escape. -/
theorem escapes_iff {strftime : String → Nat → Option String} (documented : Documented strftime) {s : String}
    (ascii : ∀ c ∈ s.toList, c.toNat < 128 ∧ c ≠ '\x00') : Escapes strftime s ↔ '%' ∉ s.toList := by
  refine ⟨?_, escapes_of_plain strftime⟩
  rintro ⟨accepted, formats, -⟩ there
  obtain ⟨run, t, text, plain⟩ := List.eq_append_cons_of_mem there
  obtain ⟨j, u, rfl, ends⟩ := exists_run t
  have same := congrArg String.toList (formats "\n" .DEBUG blankEvent)
  rw [format_new, text, scan_escape plain, scan_percents] at same
  rw [error_new, text, scan_escape plain, scan_percents] at accepted
  obtain ⟨clean, known⟩ := Bool.or_eq_false_iff.mp accepted
  rcases Nat.eq_zero_or_pos j with rfl | more
  · have inner : ∀ c ∈ u, c.toNat < 128 ∧ c ≠ '\x00' := fun c member => ascii c (by rw [text]; simp [member])
    refine ne_of_directive documented inner ends clean
      (fun part member => Bool.eq_false_iff.mpr (List.any_eq_false.mp known part member)) (same.trans ?_)
    simp
  · obtain ⟨out, starts⟩ := written_scan (dated strftime "\n") .DEBUG blankEvent clean
    have whole : run ++ '%' :: (List.replicate j '%' ++ (List.replicate j '%' ++ out)) =
        run ++ '%' :: (List.replicate j '%' ++ u) := by
      rw [← same, starts, Nat.two_mul, List.replicate_add]
      simp only [List.append_assoc, List.cons_append, List.nil_append]
    have behind := List.append_cancel_left (List.cons.inj (List.append_cancel_left whole)).2
    obtain ⟨k, rfl⟩ := Nat.exists_eq_succ_of_ne_zero (Nat.pos_iff_ne_zero.mp more)
    rw [← behind] at ends
    exact ends rfl

/-- The text back from its escaped form. -/
def unescape : List Char → List Char
  | '%' :: '%' :: s => '%' :: unescape s
  | c :: s => c :: unescape s
  | [] => []

theorem unescape_escape (s : List Char) : unescape (escape s) = s := by
  induction s with
  | nil => rfl
  | cons c s ih =>
    by_cases percent : c = '%'
    · rw [percent, escape_percent, unescape, ih]
    · rw [escape_cons percent, unescape, ih]
      exact fun t same => absurd same percent

/-- A `strftime` for the epoch that knows the dates without a format and `%%`. -/
def epoch (fmt : String) (_ : Nat) : Option String :=
  if fmt = "%Y-%m-%d %H:%M:%S" then some "1970-01-01 00:00:00"
  else if (unescape fmt.toList).length < 64 then some (String.ofList (unescape fmt.toList))
  else none

theorem documented_epoch : Documented epoch := by
  have own : ∀ f, String.ofList (escape f) ≠ "%Y-%m-%d %H:%M:%S" := by
    intro f same
    have chars : escape f = '%' :: 'Y' :: "-%m-%d %H:%M:%S".toList := by
      rw [← String.toList_ofList (l := escape f), same]
      rfl
    cases f with
    | nil => cases chars
    | cons c f =>
      by_cases percent : c = '%'
      · rw [percent, escape_percent] at chars
        exact absurd (List.cons.inj (List.cons.inj chars).2).1 (by decide)
      · rw [escape_cons percent] at chars
        exact percent (List.cons.inj chars).1
  refine ⟨⟨'1', "970-01-01 00:00:00".toList, rfl, rfl⟩, fun f time fits _ _ => ?_, fun f time longer _ _ => ?_⟩
  · rw [epoch, if_neg (own f), String.toList_ofList, unescape_escape, if_pos fits]
  · rw [epoch, if_neg (own f), String.toList_ofList, unescape_escape, if_neg (Nat.not_lt.mpr longer)]

theorem escapes_word : Escapes epoch "100 done" ↔ '%' ∉ "100 done".toList :=
  escapes_iff documented_epoch (by simp)

/-- The escaped form of a single `%` is in error. -/
theorem not_escapes_percent : Documented epoch ∧ ¬ Escapes epoch "%" := by
  refine ⟨documented_epoch, ?_⟩
  rintro ⟨accepted, -⟩
  have error : (new (String.ofList (escape "%".toList))).m_error = true := by
    rw [error_new]
    rfl
  rw [error] at accepted
  cases accepted

end LogFormatter
end Sylar
