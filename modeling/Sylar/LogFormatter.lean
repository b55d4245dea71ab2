import Mathlib.Data.List.Basic

/-! Log levels, events and `LogFormatter`: the scanner of a pattern and the items it makes. -/

namespace Sylar

/-- `LogLevel::Level`, with the value 100 that the configuration casts to it. -/
inductive LogLevel
  | UNKONW
  | DEBUG
  | INFO
  | WARN
  | ERROR
  | FATAL
  | hundred
  deriving DecidableEq, Repr

namespace LogLevel

def toNat : LogLevel → Nat
  | UNKONW => 0
  | DEBUG => 1
  | INFO => 2
  | WARN => 3
  | ERROR => 4
  | FATAL => 5
  | hundred => 100

def ToString : LogLevel → String
  | DEBUG => "DEBUG"
  | INFO => "INFO"
  | WARN => "WARN"
  | ERROR => "ERROR"
  | FATAL => "FATAL"
  | _ => "UNKNOWN"

def FromString (str : String) : LogLevel :=
  if str = "debug" then DEBUG
  else if str = "info" then INFO
  else if str = "warn" then WARN
  else if str = "error" then ERROR
  else if str = "fatal" then FATAL
  else if str = "DEBUG" then DEBUG
  else if str = "INFO" then INFO
  else if str = "WARN" then WARN
  else if str = "ERROR" then ERROR
  else if str = "FATAL" then FATAL
  else UNKONW

/-- The names are read back, and the two values without a name as `UNKONW`. -/
theorem FromString_ToString (level : LogLevel) :
    FromString level.ToString = if level = hundred then UNKONW else level := by
  cases level <;> rfl

end LogLevel

/-- A `LogEvent`, with the name of its logger and the text of its stream. -/
structure LogEvent where
  m_file : String
  m_line : Int
  m_elapse : Nat
  m_threadId : Nat
  m_fiberId : Nat
  m_time : Nat
  m_content : String
  m_loggerName : String
  m_threadName : String

/-- The items of a formatter. -/
inductive FormatItem
  | messageFormatItem
  | levelFormatItem
  | nameFormatItem
  | elapseFormatItem
  | threadIdFormatItem
  | fiberIdFormatItem
  | threadNameFormatItem
  | dateTimeFormatItem (m_format : String)
  | fileNameFormatItem
  | lineFormatItem
  | newLineFormatItem
  | stringFormatItem (m_string : String)
  | tabFormatItem
  deriving DecidableEq, Repr

namespace FormatItem

/-- The constructor of `DateTimeFormatItem`. -/
def dateTime (format : String) : FormatItem :=
  .dateTimeFormatItem (if format.isEmpty then "%Y-%m-%d %H:%M:%S" else format)

/-- What an item writes; `strftime` writes a time as the local one. -/
def format (strftime : String → Nat → String) (level : LogLevel) (event : LogEvent) : FormatItem → String
  | messageFormatItem => event.m_content
  | levelFormatItem => level.ToString
  | nameFormatItem => event.m_loggerName
  | elapseFormatItem => toString event.m_elapse
  | threadIdFormatItem => toString event.m_threadId
  | fiberIdFormatItem => toString event.m_fiberId
  | threadNameFormatItem => event.m_threadName
  | dateTimeFormatItem m_format => strftime m_format event.m_time
  | fileNameFormatItem => event.m_file
  | lineFormatItem => toString event.m_line
  | newLineFormatItem => "\n"
  | stringFormatItem m_string => m_string
  | tabFormatItem => "\t"

end FormatItem

namespace LogFormatter

/-- `isalpha` on the ASCII characters. -/
def isalpha (c : Char) : Bool := c.isAlpha

/-- An entry of `vec`. -/
structure Part where
  str : List Char
  fmt : List Char
  type : Nat
  deriving DecidableEq, Repr

/-- What the inner loop of `init` leaves: `n` counts the characters after the `%`. -/
structure Directive where
  str : List Char
  fmt : List Char
  fmt_status : Nat
  n : Nat
  deriving DecidableEq, Repr

/-- The inner loop. `read` holds the characters from `i + 1` to `n`, and `fmt`, once `fmt_status` is 1,
those after `fmt_begin`. -/
def directive (str : List Char) (fmt : Option (List Char)) (read : List Char) : List Char → Directive
  | [] => ⟨str, [], if fmt.isSome then 1 else 0, read.length⟩
  | c :: rest =>
    -- the last character of the pattern ends a name without a format
    let str' := if rest = [] ∧ str = [] then read ++ [c] else str
    match fmt with
    | none =>
      if !isalpha c ∧ c ≠ '{' ∧ c ≠ '}' then ⟨read, [], 0, read.length⟩
      else if c = '{' then directive read (some []) (read ++ [c]) rest
      else directive str' none (read ++ [c]) rest
    | some fmt =>
      if c = '}' then ⟨str, fmt, 0, read.length + 1⟩
      else directive str' (some (fmt ++ [c])) (read ++ [c]) rest

/-- The text that has been collected so far, when there is some. -/
def flush (nstr : List Char) : List Part := if nstr = [] then [] else [⟨nstr, [], 0⟩]

/-- The outer loop: `vec` and `m_error`. After a directive `i = n - 1` skips the characters that the
inner loop has read. There is no branch for `fmt_status == 2`, a value that is never given. -/
def scan (nstr : List Char) : Nat → List Char → List Part × Bool
  | _, [] => (flush nstr, false)
  | skip + 1, _ :: rest => scan nstr skip rest
  | 0, c :: rest =>
    if c ≠ '%' then scan (nstr ++ [c]) 0 rest
    else if rest.head? = some '%' then scan (nstr ++ ['%']) 0 rest
    else
      let found := directive [] none [] rest
      if found.fmt_status = 0 then
        let (vec, m_error) := scan [] found.n rest
        (flush nstr ++ ⟨found.str, found.fmt, 1⟩ :: vec, m_error)
      else
        let (vec, _) := scan nstr 0 rest
        (⟨"<<pattern_error>>".toList, found.fmt, 0⟩ :: vec, true)

def s_format_items : List (List Char × (String → FormatItem)) :=
  [(['m'], fun _ => .messageFormatItem),
   (['p'], fun _ => .levelFormatItem),
   (['r'], fun _ => .elapseFormatItem),
   (['c'], fun _ => .nameFormatItem),
   (['t'], fun _ => .threadIdFormatItem),
   (['n'], fun _ => .newLineFormatItem),
   (['d'], FormatItem.dateTime),
   (['f'], fun _ => .fileNameFormatItem),
   (['l'], fun _ => .lineFormatItem),
   (['T'], fun _ => .tabFormatItem),
   (['F'], fun _ => .fiberIdFormatItem),
   (['N'], fun _ => .threadNameFormatItem)]

/-- The item of an entry, and whether its name is unknown. -/
def item (part : Part) : FormatItem × Bool :=
  if part.type = 0 then (.stringFormatItem (String.ofList part.str), false)
  else match s_format_items.lookup part.str with
    | none => (.stringFormatItem ("<<error_format %" ++ String.ofList part.str ++ ">>"), true)
    | some make => (make (String.ofList part.fmt), false)

/-- `m_items` and `m_error`. -/
def init (m_pattern : String) : List FormatItem × Bool :=
  let (vec, m_error) := scan [] 0 m_pattern.toList
  (vec.map fun part => (item part).1, m_error || vec.any fun part => (item part).2)

end LogFormatter

/-- A `LogFormatter` is what its constructor makes of the pattern. -/
structure LogFormatter where
  m_pattern : String
  m_items : List FormatItem
  m_error : Bool
  inited : LogFormatter.init m_pattern = (m_items, m_error)

namespace LogFormatter

def new (pattern : String) : LogFormatter := ⟨pattern, (init pattern).1, (init pattern).2, rfl⟩

def isError (f : LogFormatter) : Bool := f.m_error

def getPattern (f : LogFormatter) : String := f.m_pattern

def format (strftime : String → Nat → String) (f : LogFormatter) (level : LogLevel) (event : LogEvent) : String :=
  f.m_items.foldl (fun ss i => ss ++ i.format strftime level event) ""

@[simp] theorem getPattern_new (pattern : String) : (new pattern).getPattern = pattern := rfl

/-- Two formatters of one pattern are the same. -/
theorem ext_pattern {f g : LogFormatter} (same : f.getPattern = g.getPattern) : f = g := by
  obtain ⟨p, items, error, inited⟩ := f
  obtain ⟨q, items', error', inited'⟩ := g
  cases same
  cases inited.symm.trans inited'
  rfl

end LogFormatter
end Sylar
