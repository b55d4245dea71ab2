import Sylar.LogFormatter

/-! The grammar of the patterns, and that `LogFormatter::init` reads it. -/

namespace Sylar
namespace LogFormatter

/-- The names of the directives. -/
inductive Letter
  | m
  | p
  | r
  | c
  | t
  | n
  | d
  | f
  | l
  | T
  | F
  | N
  deriving DecidableEq

namespace Letter

def char : Letter → Char
  | m => 'm'
  | p => 'p'
  | r => 'r'
  | c => 'c'
  | t => 't'
  | n => 'n'
  | d => 'd'
  | f => 'f'
  | l => 'l'
  | T => 'T'
  | F => 'F'
  | N => 'N'

/-- What a directive stands for; only the date has a use for the format. -/
def item (fmt : String) : Letter → FormatItem
  | m => .messageFormatItem
  | p => .levelFormatItem
  | r => .elapseFormatItem
  | c => .nameFormatItem
  | t => .threadIdFormatItem
  | n => .newLineFormatItem
  | d => .dateTime fmt
  | f => .fileNameFormatItem
  | l => .lineFormatItem
  | T => .tabFormatItem
  | F => .fiberIdFormatItem
  | N => .threadNameFormatItem

end Letter

/-- A run of text without `%`, or a directive `%x` or `%x{fmt}`. -/
inductive Segment
  | text (run : List Char) (nonempty : run ≠ []) (plain : '%' ∉ run)
  | bare (x : Letter)
  | braced (x : Letter) (fmt : List Char) (closed : '}' ∉ fmt)

namespace Segment

def render : Segment → List Char
  | text run _ _ => run
  | bare x => ['%', x.char]
  | braced x fmt _ => '%' :: x.char :: '{' :: fmt ++ ['}']

def item : Segment → FormatItem
  | text run _ _ => .stringFormatItem (String.ofList run)
  | bare x => x.item ""
  | braced x fmt _ => x.item (String.ofList fmt)

def isText : Segment → Bool
  | text .. => true
  | _ => false

end Segment

/-- What the segments are written as. -/
def render (segments : List Segment) : List Char := segments.flatMap Segment.render

/-- A directive without braces ends before a `%` or before a character that is neither a letter nor a brace. -/
def Follows : List Char → Prop
  | [] => True
  | c :: _ => c = '%' ∨ (isalpha c = false ∧ c ≠ '{' ∧ c ≠ '}')

/-- The runs of text are maximal, and the directives without braces end where they may. -/
inductive Grammar : List Segment → Prop
  | nil : Grammar []
  | text {run nonempty plain rest} : (∀ s ∈ rest.head?, s.isText = false) → Grammar rest →
      Grammar (.text run nonempty plain :: rest)
  | bare {x rest} : Follows (render rest) → Grammar rest → Grammar (.bare x :: rest)
  | braced {x fmt closed rest} : Grammar rest → Grammar (.braced x fmt closed :: rest)

/-- The segments are those of the pattern. -/
def Parses (m_pattern : String) (segments : List Segment) : Prop :=
  Grammar segments ∧ render segments = m_pattern.toList

/-- The entry of `vec` for a segment. -/
def Segment.part : Segment → Part
  | .text run _ _ => ⟨run, [], 0⟩
  | .bare x => ⟨[x.char], [], 1⟩
  | .braced x fmt _ => ⟨[x.char], fmt, 1⟩

theorem lookup_char (x : Letter) (fmt : String) :
    ∃ make, s_format_items.lookup [x.char] = some make ∧ make fmt = x.item fmt := by
  cases x <;> exact ⟨_, rfl, rfl⟩

theorem char_of_lookup {str : List Char} {make : String → FormatItem}
    (found : s_format_items.lookup str = some make) : ∃ x : Letter, str = [x.char] := by
  obtain ⟨before, after, table, -⟩ := List.lookup_eq_some_iff.mp found
  have member : str ∈ s_format_items.map Prod.fst := by
    rw [table, List.map_append, List.map_cons]
    exact List.mem_append_right _ List.mem_cons_self
  have letters : s_format_items.map Prod.fst =
      [Letter.m, .p, .r, .c, .t, .n, .d, .f, .l, .T, .F, .N].map fun x => [x.char] := rfl
  rw [letters] at member
  obtain ⟨x, -, same⟩ := List.mem_map.mp member
  exact ⟨x, same.symm⟩

theorem Segment.item_part (s : Segment) : LogFormatter.item s.part = (s.item, false) := by
  cases s with
  | text run => rfl
  | bare x =>
    obtain ⟨make, found, makes⟩ := lookup_char x ""
    simp only [LogFormatter.item, Segment.part, Segment.item, found, ← makes]
    rfl
  | braced x fmt =>
    obtain ⟨make, found, makes⟩ := lookup_char x (String.ofList fmt)
    simp only [LogFormatter.item, Segment.part, Segment.item, found, ← makes]
    rfl

theorem isalpha_char (x : Letter) : isalpha x.char = true := by
  cases x <;> rfl

theorem char_ne_open (x : Letter) : x.char ≠ '{' := by
  cases x <;> decide

theorem char_ne_percent (x : Letter) : x.char ≠ '%' := by
  cases x <;> decide

section Loop
variable {str fmt read rest : List Char} {c : Char} {x : Letter}

/-- Between the braces the loop reads up to the first `}`. -/
theorem directive_fmt (closed : '}' ∉ fmt) (acc : List Char) :
    directive str (some acc) read (fmt ++ '}' :: rest) = ⟨str, acc ++ fmt, 0, read.length + fmt.length + 1⟩ := by
  induction fmt generalizing acc read with
  | nil => simp [directive]
  | cons c fmt ih =>
    rw [List.mem_cons, not_or] at closed
    have more : ¬ (fmt ++ '}' :: rest = [] ∧ str = []) := by simp
    simp only [List.cons_append, directive, if_neg (Ne.symm closed.1), if_neg more]
    rw [ih closed.2]
    simp only [List.append_assoc, List.cons_append, List.nil_append, List.length_append, List.length_cons,
      List.length_nil]
    congr 1
    omega

theorem directive_char : directive str none read (x.char :: rest) =
    directive (if rest = [] ∧ str = [] then read ++ [x.char] else str) none (read ++ [x.char]) rest := by
  simp [directive, isalpha_char, char_ne_open]

/-- A letter before the end, before `%` or before another character that ends it. -/
theorem directive_bare (follows : Follows rest) : directive [] none [] (x.char :: rest) = ⟨[x.char], [], 0, 1⟩ := by
  rw [directive_char]
  cases rest with
  | nil => simp [directive]
  | cons c rest =>
    have ends : (!isalpha c) = true ∧ c ≠ '{' ∧ c ≠ '}' := by
      rcases follows with rfl | ⟨other, braces⟩
      · decide
      · exact ⟨by rw [other]; rfl, braces⟩
    simp [directive, ends]

theorem directive_braced (closed : '}' ∉ fmt) :
    directive [] none [] (x.char :: '{' :: (fmt ++ '}' :: rest)) = ⟨[x.char], fmt, 0, fmt.length + 3⟩ := by
  rw [directive_char]
  have opened : directive [] none [x.char] ('{' :: (fmt ++ '}' :: rest)) =
      directive [x.char] (some []) [x.char, '{'] (fmt ++ '}' :: rest) := by
    simp [directive, isalpha]
  rw [if_neg (by simp), List.nil_append, opened, directive_fmt closed, List.nil_append]
  congr 1
  simp only [List.length_cons, List.length_nil]
  omega

/-- A format that has been closed is what stands before the first `}`. -/
theorem fmt_of_closed {acc : List Char} (status : (directive str (some acc) read rest).fmt_status = 0) :
    ∃ fmt tail, '}' ∉ fmt ∧ rest = fmt ++ '}' :: tail ∧
      directive str (some acc) read rest = ⟨str, acc ++ fmt, 0, read.length + fmt.length + 1⟩ := by
  suffices found : ∃ fmt tail, '}' ∉ fmt ∧ rest = fmt ++ '}' :: tail by
    obtain ⟨fmt, tail, closed, rfl⟩ := found
    exact ⟨fmt, tail, closed, rfl, directive_fmt closed acc⟩
  induction rest generalizing str read acc with
  | nil => cases status
  | cons c rest ih =>
    by_cases ends : c = '}'
    · exact ⟨[], rest, List.not_mem_nil, by rw [ends]; rfl⟩
    · simp only [directive, if_neg ends] at status
      obtain ⟨fmt, tail, closed, rfl⟩ := ih status
      refine ⟨c :: fmt, tail, ?_, rfl⟩
      rw [List.mem_cons, not_or]
      exact ⟨Ne.symm ends, closed⟩

/-- What the loop has read when it leaves with a directive: a name without braces, or a name and a format. -/
theorem directive_cases (status : (directive str none read rest).fmt_status = 0)
    (fresh : str = if rest = [] then read else []) :
    ∃ name tail, (rest = name ++ tail ∧ Follows tail ∧
        directive str none read rest = ⟨read ++ name, [], 0, read.length + name.length⟩) ∨
      ∃ fmt, '}' ∉ fmt ∧ rest = name ++ '{' :: (fmt ++ '}' :: tail) ∧
        directive str none read rest = ⟨read ++ name, fmt, 0, read.length + name.length + fmt.length + 2⟩ := by
  induction rest generalizing str read with
  | nil =>
    rw [if_pos rfl] at fresh
    subst fresh
    exact ⟨[], [], .inl ⟨rfl, trivial, by simp [directive]⟩⟩
  | cons c rest ih =>
    rw [if_neg (List.cons_ne_nil c rest)] at fresh
    subst fresh
    by_cases ends : (!isalpha c) = true ∧ c ≠ '{' ∧ c ≠ '}'
    · refine ⟨[], c :: rest, .inl ⟨rfl, .inr ⟨by simpa using ends.1, ends.2⟩, ?_⟩⟩
      simp [directive, ends]
    by_cases opens : c = '{'
    · subst opens
      have opened : directive [] none read ('{' :: rest) = directive read (some []) (read ++ ['{']) rest := by
        simp [directive]
      rw [opened] at status
      obtain ⟨fmt, tail, closed, rfl, found⟩ := fmt_of_closed status
      refine ⟨[], tail, .inr ⟨fmt, closed, rfl, ?_⟩⟩
      rw [opened, found]
      simp only [List.nil_append, List.append_nil, List.length_append, List.length_cons, List.length_nil]
      congr 1
      omega
    · have goes : directive [] none read (c :: rest) =
          directive (if rest = [] then read ++ [c] else []) none (read ++ [c]) rest := by
        simp only [directive, if_neg ends, if_neg opens, and_true]
      rw [goes] at status ⊢
      obtain ⟨name, tail, shape⟩ := ih status rfl
      refine ⟨c :: name, tail, ?_⟩
      rcases shape with ⟨rfl, follows, found⟩ | ⟨fmt, closed, rfl, found⟩
      · refine .inl ⟨rfl, follows, ?_⟩
        rw [found, List.append_assoc, List.length_append, Nat.add_assoc, Nat.add_comm [c].length]
        rfl
      · refine .inr ⟨fmt, closed, rfl, ?_⟩
        rw [found, List.append_assoc, List.length_append, Nat.add_assoc read.length, Nat.add_comm [c].length]
        rfl

end Loop

theorem scan_drop (nstr : List Char) (skip : Nat) (rest : List Char) :
    scan nstr skip rest = scan nstr 0 (rest.drop skip) := by
  induction rest generalizing skip with
  | nil => cases skip <;> rfl
  | cons c rest ih =>
    cases skip with
    | zero => rfl
    | succ skip => exact ih skip

/-- Text without `%` is collected. -/
theorem scan_text {run : List Char} (plain : '%' ∉ run) (nstr rest : List Char) :
    scan nstr 0 (run ++ rest) = scan (nstr ++ run) 0 rest := by
  induction run generalizing nstr with
  | nil => rw [List.append_nil, List.nil_append]
  | cons c run ih =>
    rw [List.mem_cons, not_or] at plain
    simp only [List.cons_append, scan, ne_eq, Ne.symm plain.1, not_false_eq_true, if_true]
    rw [ih plain.2, List.append_assoc, List.singleton_append]

/-- A directive flushes the text before it and leaves the scanner after it. -/
theorem scan_directive {nstr rest : List Char} {found : Directive} (alone : rest.head? ≠ some '%')
    (loop : directive [] none [] rest = found) (status : found.fmt_status = 0) :
    scan nstr 0 ('%' :: rest) = (flush nstr ++ ⟨found.str, found.fmt, 1⟩ :: (scan [] 0 (rest.drop found.n)).1,
      (scan [] 0 (rest.drop found.n)).2) := by
  simp only [scan, ne_eq, not_true_eq_false, if_false, alone, loop, status, if_true, ← scan_drop [] found.n]

theorem render_cons (s : Segment) (rest : List Segment) : render (s :: rest) = s.render ++ render rest := rfl

theorem head_char (x : Letter) (rest : List Char) : (x.char :: rest).head? ≠ some '%' := by
  intro same
  exact char_ne_percent x (Option.some.inj same)

/-- The scanner reads the segments that the grammar gives. -/
theorem Grammar.scan {segments : List Segment} (grammar : Grammar segments) (nstr : List Char)
    (apart : nstr ≠ [] → ∀ s ∈ segments.head?, s.isText = false) :
    scan nstr 0 (render segments) = (flush nstr ++ segments.map Segment.part, false) := by
  induction grammar generalizing nstr with
  | nil => rw [List.map_nil, List.append_nil]; rfl
  | @text run nonempty plain rest maximal grammar ih =>
    have empty : nstr = [] := by
      by_contra more
      cases apart more (.text run nonempty plain) rfl
    subst empty
    rw [render_cons, Segment.render, scan_text plain, List.nil_append, ih run fun _ => maximal]
    simp [flush, nonempty, Segment.part]
  | @bare x rest follows grammar ih =>
    have loop := directive_bare (x := x) follows
    have next := ih [] fun more => absurd rfl more
    rw [render_cons, Segment.render, List.cons_append, List.singleton_append,
      scan_directive (head_char x _) loop rfl]
    simp only [List.drop_succ_cons, List.drop_zero, next]
    rfl
  | @braced x fmt closed rest grammar ih =>
    have loop : directive [] none [] (x.char :: '{' :: (fmt ++ '}' :: render rest)) =
        ⟨[x.char], fmt, 0, fmt.length + 3⟩ := directive_braced closed
    have next := ih [] fun more => absurd rfl more
    have left : (x.char :: '{' :: (fmt ++ '}' :: render rest)).drop (fmt.length + 3) = render rest := by
      simp [List.drop_append]
    have whole : render (.braced x fmt closed :: rest) =
        '%' :: x.char :: '{' :: (fmt ++ '}' :: render rest) := by
      simp [render_cons, Segment.render]
    rw [whole, scan_directive (head_char x _) loop rfl]
    simp only [left, next]
    rfl

/-- Text in front of a directive is a run of its own. -/
theorem Grammar.textBefore {nstr : List Char} {segments : List Segment} (plain : '%' ∉ nstr)
    (grammar : Grammar segments) (maximal : ∀ s ∈ segments.head?, s.isText = false) :
    ∃ all, Grammar all ∧ render all = nstr ++ render segments := by
  by_cases empty : nstr = []
  · exact ⟨segments, grammar, by rw [empty]; rfl⟩
  · exact ⟨.text nstr empty plain :: segments, .text maximal grammar, rfl⟩

/-- A name that the table knows is that of a directive, and the loop has read it whole. -/
theorem segment_of_known {rest : List Char} {found : Directive} (loop : directive [] none [] rest = found)
    (status : found.fmt_status = 0) (known : (item ⟨found.str, found.fmt, 1⟩).2 = false) :
    ∃ s : Segment, s.isText = false ∧ '%' :: rest = s.render ++ rest.drop found.n ∧
      ∀ segments, Grammar segments → render segments = rest.drop found.n → Grammar (s :: segments) := by
  have letter : ∃ x : Letter, found.str = [x.char] := by
    cases made : s_format_items.lookup found.str with
    | none => simp [item, made] at known
    | some make => exact char_of_lookup made
  obtain ⟨x, name⟩ := letter
  rw [← loop] at status
  obtain ⟨read, tail, ⟨rfl, follows, same⟩ | ⟨fmt, closed, rfl, same⟩⟩ := directive_cases status (by simp)
  · rw [loop, List.nil_append] at same
    subst same
    cases name
    refine ⟨.bare x, rfl, rfl, fun segments grammar whole => .bare ?_ grammar⟩
    exact whole ▸ follows
  · rw [loop, List.nil_append] at same
    subst same
    cases name
    refine ⟨.braced x fmt closed, rfl, ?_, fun _ grammar _ => .braced grammar⟩
    simp [Segment.render, List.drop_append, Nat.add_assoc, Nat.add_comm]

/-- What the scanner takes without an error has segments. -/
theorem exists_grammar {nstr rest : List Char} (plain : '%' ∉ nstr) (apart : ¬ ['%', '%'] <:+: rest)
    (clean : (scan nstr 0 rest).2 = false) (known : ∀ part ∈ (scan nstr 0 rest).1, (item part).2 = false) :
    ∃ segments, Grammar segments ∧ render segments = nstr ++ rest := by
  induction size : rest.length using Nat.strongRecOn generalizing nstr rest with
  | _ size ih =>
  subst size
  cases rest with
  | nil => exact Grammar.nil.textBefore plain nofun
  | cons c rest =>
    have inner : ¬ ['%', '%'] <:+: rest := fun twice => apart (twice.trans (List.suffix_cons c rest).isInfix)
    by_cases percent : c = '%'
    · subst percent
      have alone : rest.head? ≠ some '%' := by
        intro twice
        obtain ⟨rest, rfl⟩ := List.head?_eq_some_iff.mp twice
        exact apart ⟨[], rest, rfl⟩
      by_cases status : (directive [] none [] rest).fmt_status = 0
      · rw [scan_directive alone rfl status] at clean known
        obtain ⟨s, directive, whole, grows⟩ := segment_of_known rfl status
          (known _ (List.mem_append_right _ List.mem_cons_self))
        obtain ⟨segments, grammar, same⟩ := ih _ (Nat.lt_succ_of_le (List.drop_sublist ..).length_le) List.not_mem_nil
          (fun twice => inner (twice.trans (List.drop_suffix ..).isInfix)) clean
          (fun part member => known part (List.mem_append_right _ (List.mem_cons_of_mem _ member))) rfl
        obtain ⟨all, grammar, same'⟩ := (grows segments grammar same).textBefore plain (by simpa using directive)
        refine ⟨all, grammar, ?_⟩
        rw [same', render_cons, same, List.nil_append, ← whole]
      · simp [scan, alone, status] at clean
    · have goes : scan nstr 0 (c :: rest) = scan (nstr ++ [c]) 0 rest := by
        simp [scan, percent]
      rw [goes] at clean known
      have plain' : '%' ∉ nstr ++ [c] := by
        simp [plain, Ne.symm percent]
      obtain ⟨segments, grammar, same⟩ := ih _ (Nat.lt_succ_self _) plain' inner clean known rfl
      exact ⟨segments, grammar, by rw [same, List.append_assoc, List.singleton_append]⟩

/-- The items of a pattern with segments. -/
theorem Parses.init {pattern : String} {segments : List Segment} (parses : Parses pattern segments) :
    init pattern = (segments.map Segment.item, false) := by
  obtain ⟨grammar, whole⟩ := parses
  have scanned := grammar.scan [] fun more => absurd rfl more
  have items : (segments.map Segment.part).map (fun part => (item part).1) = segments.map Segment.item := by
    rw [List.map_map]
    exact List.map_congr_left fun s _ => congrArg Prod.fst s.item_part
  have known : (segments.map Segment.part).any (fun part => (item part).2) = false := by
    rw [List.any_map, List.any_eq_false]
    intro s _
    simp [s.item_part]
  rw [LogFormatter.init, ← whole, scanned]
  exact congrArg₂ Prod.mk items known

/-- For a pattern without two adjacent `%`, there is no error if and only if the pattern has segments, and
then the items are theirs, in their order. -/
theorem init_eq_segments (pattern : String) (apart : ¬ ['%', '%'] <:+: pattern.toList) :
    ((new pattern).m_error = false ↔ ∃ segments, Parses pattern segments) ∧
      ∀ segments, Parses pattern segments → (new pattern).m_items = segments.map Segment.item := by
  refine ⟨⟨fun accepted => ?_, fun ⟨segments, parses⟩ => congrArg Prod.snd parses.init⟩,
    fun segments parses => congrArg Prod.fst parses.init⟩
  obtain ⟨clean, known⟩ := Bool.or_eq_false_iff.mp accepted
  obtain ⟨segments, grammar, whole⟩ := exists_grammar List.not_mem_nil apart clean
    fun part member => Bool.eq_false_iff.mpr (List.any_eq_false.mp known part member)
  exact ⟨segments, grammar, whole⟩

/-- The pattern `%d{%H:%M}%T[%p] %m%n`. -/
def timePattern : List Segment :=
  [.braced .d ['%', 'H', ':', '%', 'M'] (by decide), .bare .T, .text ['['] (by decide) (by decide), .bare .p,
    .text [']', ' '] (by decide) (by decide), .bare .m, .bare .n]

theorem init_eq_timePattern : (new "%d{%H:%M}%T[%p] %m%n").m_error = false ∧
    (new "%d{%H:%M}%T[%p] %m%n").m_items =
      [.dateTime "%H:%M", .tabFormatItem, .stringFormatItem "[", .levelFormatItem, .stringFormatItem "] ",
        .messageFormatItem, .newLineFormatItem] := by
  have parses : Parses "%d{%H:%M}%T[%p] %m%n" timePattern :=
    ⟨.braced <| .bare (.inr (by decide)) <| .text (by decide) <| .bare (.inr (by decide)) <| .text (by decide) <|
      .bare (.inl rfl) <| .bare trivial .nil, rfl⟩
  have reads := init_eq_segments "%d{%H:%M}%T[%p] %m%n" (by simp [List.infix_cons_iff, List.cons_prefix_cons])
  exact ⟨reads.1.mpr ⟨timePattern, parses⟩, reads.2 timePattern parses⟩

end LogFormatter
end Sylar
