import Sylar.Lib.Machine
import Sylar.LogFormatter

/-! Appenders: the formatter that each of them holds, and the file of a `FileLogAppender`. -/

namespace Sylar
open Machine

/-- A shared pointer to a formatter. Nothing changes a formatter once it is made. -/
structure FormatterPtr where
  addr : Nat
  formatter : LogFormatter

/-- The base class of the appenders. -/
structure LogAppender where
  m_level : LogLevel := .DEBUG
  m_hasFormatter : Bool := false
  m_formatter : Option FormatterPtr := none

namespace LogAppender

def setFormatter (a : LogAppender) (val : Option FormatterPtr) : LogAppender :=
  { a with m_formatter := val, m_hasFormatter := val.isSome }

def getFormatter (a : LogAppender) : Option FormatterPtr := a.m_formatter

def setLevel (a : LogAppender) (val : LogLevel) : LogAppender := { a with m_level := val }

end LogAppender

/-- A `FileLogAppender` and what has been written to its file, the buffer of the stream included. -/
structure FileLogAppender extends LogAppender where
  m_filename : String
  content : String
  m_lastTime : BitVec 64 := 0

namespace FileLogAppender

/-- `std::ofstream::open` truncates the file. -/
def reopen (a : FileLogAppender) : FileLogAppender := { a with content := "" }

def new (filename : String) : FileLogAppender := reopen { m_filename := filename, content := "" }

section
variable (strftime : String → Nat → String)

/-- `log` when `time(0)` gives `time`; without a formatter it has no result. -/
def log (a : FileLogAppender) (level : LogLevel) (event : LogEvent) (time : Int) : Option FileLogAppender :=
  if a.m_level.toNat ≤ level.toNat then do
    let now := BitVec.ofInt 64 time
    let a' := if now ≠ a.m_lastTime then { a.reopen with m_lastTime := now } else a
    let m_formatter ← a'.m_formatter
    return { a' with content := a'.content ++ m_formatter.formatter.format strftime level event }
  else some a

variable {strftime} {a b : FileLogAppender} {level : LogLevel} {event : LogEvent} {time : Int}

/-- A line goes behind what the file has had, or alone into the file that a new second has emptied. -/
theorem log_eq_some (logged : a.log strftime level event time = some b) (passes : a.m_level.toNat ≤ level.toNat) :
    ∃ f, a.m_formatter = some f ∧ b.toLogAppender = a.toLogAppender ∧
      b.content = (if BitVec.ofInt 64 time ≠ a.m_lastTime then "" else a.content) ++
        f.formatter.format strftime level event := by
  by_cases reads : BitVec.ofInt 64 time ≠ a.m_lastTime
  · simp only [log, if_pos passes, if_pos reads] at logged
    obtain ⟨f, has, done⟩ := Option.bind_eq_some_iff.mp logged
    cases done
    exact ⟨f, has, rfl, by rw [if_pos reads]; rfl⟩
  · simp only [log, if_pos passes, if_neg reads] at logged
    obtain ⟨f, has, done⟩ := Option.bind_eq_some_iff.mp logged
    cases done
    exact ⟨f, has, rfl, by rw [if_neg reads]⟩

end
end FileLogAppender

/-- An appender on which `log` is called, the latest reading of the clock, and the text of the calls so far
whose level is at least the appender's. -/
structure FileLog where
  appender : FileLogAppender
  clock : Int
  written : String

namespace FileLog

variable (strftime : String → Nat → String)

/-- What a call adds to the text. -/
def line (s : FileLog) (level : LogLevel) (event : LogEvent) : String :=
  match s.appender.m_formatter with
  | some f => f.formatter.format strftime level event
  | none => ""

/-- A call. The clock is read only when the level is high enough, and it does not go back. -/
def Step (s : FileLog) (l : LogLevel × LogEvent × Int) (t : FileLog) : Prop :=
  ∃ appender, s.appender.log strftime l.1 l.2.1 l.2.2 = some appender ∧
    if s.appender.m_level.toNat ≤ l.1.toNat then
      s.clock ≤ l.2.2 ∧ t = { appender, clock := l.2.2, written := s.written ++ s.line strftime l.1 l.2.1 }
    else t = { s with appender }

/-- The file has every line that was to be written. -/
def Complete (s : FileLog) : Prop := s.appender.content = s.written

/-- A call that is to be written does not read a new second when the file has content. -/
def Steady (s : FileLog) (l : LogLevel × LogEvent × Int) (_ : FileLog) : Prop :=
  s.appender.m_level.toNat ≤ l.1.toNat → BitVec.ofInt 64 l.2.2 ≠ s.appender.m_lastTime → s.appender.content = ""

variable {strftime} {s t : FileLog} {l : LogLevel × LogEvent × Int}

/-- A call leaves the file complete exactly when it does not throw content away. -/
theorem Complete.step (complete : s.Complete) (step : s.Step strftime l t) : t.Complete ↔ s.Steady l t := by
  obtain ⟨level, event, time⟩ := l
  obtain ⟨appender, logged, after⟩ := step
  by_cases passes : s.appender.m_level.toNat ≤ level.toNat
  · obtain ⟨f, has, -, kept⟩ := FileLogAppender.log_eq_some logged passes
    rw [if_pos passes] at after
    obtain ⟨-, rfl⟩ := after
    have line : s.line strftime level event = f.formatter.format strftime level event := by
      rw [FileLog.line, has]
    have before : s.appender.content = s.written := complete
    simp only [Complete, Steady, kept, line, ← before]
    by_cases same : BitVec.ofInt 64 time = s.appender.m_lastTime
    · simp [same]
    · rw [if_pos same]
      exact (String.append_left_inj _).trans
        ⟨fun empty _ _ => empty.symm, fun empty => (empty passes same).symm⟩
  · rw [if_neg passes] at after
    subst after
    rw [FileLogAppender.log, if_neg passes] at logged
    cases logged
    exact ⟨fun _ reads => absurd reads passes, fun _ => complete⟩

/-- Along every run of calls of `log` the file has every line after each call if and only if no line is
written in a new second after there is content. -/
theorem run_complete_iff_steady {base : LogAppender} {filename : String} {clock : Int}
    {ls : List (LogLevel × LogEvent × Int)} :
    Run (Guarded (Step strftime) fun _ _ t => t.Complete)
        { appender := { FileLogAppender.new filename with toLogAppender := base }, clock, written := "" } ls t ↔
      Run (Guarded (Step strftime) Steady)
        { appender := { FileLogAppender.new filename with toLogAppender := base }, clock, written := "" } ls t :=
  Run.guarded_congr Complete (fun _ _ _ complete step => complete.step step)
    (fun _ _ _ _ _ complete => complete) rfl

/-- An event with a message. -/
def said (m_content : String) : LogEvent :=
  { m_file := "", m_line := 0, m_elapse := 0, m_threadId := 0, m_fiberId := 0, m_time := 0, m_content,
    m_loggerName := "", m_threadName := "" }

/-- A formatter that writes the message alone. -/
def messages : LogAppender := LogAppender.setFormatter {} (some ⟨0, LogFormatter.new "%m"⟩)

/-- A line in the first second and one in the next second. -/
def twoSeconds : List (LogLevel × LogEvent × Int) := [(.INFO, said "a", 1), (.INFO, said "b", 2)]

/-- The file has the second line only. -/
theorem not_complete_twoSeconds : ∃ t,
    Run (Step fun _ _ => "")
      { appender := { FileLogAppender.new "log" with toLogAppender := messages }, clock := 0, written := "" }
      twoSeconds t ∧ t.appender.content = "b" ∧ t.written = "ab" ∧ ¬ t.Complete := by
  have run : ∃ t, Run (Step fun _ _ => "")
      { appender := { FileLogAppender.new "log" with toLogAppender := messages }, clock := 0, written := "" }
      twoSeconds t ∧ t.appender.content = "b" ∧ t.written = "ab" :=
    ⟨_, .cons ⟨_, rfl, by decide, rfl⟩ (.cons ⟨_, rfl, by decide, rfl⟩ .start), by decide, by decide⟩
  obtain ⟨t, steps, content, written⟩ := run
  refine ⟨t, steps, content, written, fun complete => ?_⟩
  have same : "b" = "ab" := content.symm.trans (complete.trans written)
  exact absurd same (by decide)

end FileLog
end Sylar
