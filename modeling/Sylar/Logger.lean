import Mathlib.Logic.Function.Basic
import Sylar.LogAppender

/-! `Logger`: its appenders and the formatter that they inherit from it. -/

namespace Sylar
open Machine

/-- A shared pointer to an appender. -/
abbrev AppenderPtr := Nat

structure Logger where
  m_name : String
  m_level : LogLevel := .DEBUG
  m_appenders : List AppenderPtr := []
  m_formatter : Option FormatterPtr

namespace Logger

/-- A new logger, with the address of its formatter. -/
def new (name : String) (addr : Nat) : Logger where
  m_name := name
  m_formatter := some ⟨addr, LogFormatter.new "%d{%Y-%m-%d %H:%M:%S}%T%t%T%N%T%F%T[%p]%T[%c]%T%f:%l%T%m%n"⟩

def setLevel (l : Logger) (val : LogLevel) : Logger := { l with m_level := val }

variable (l : Logger) (heap : AppenderPtr → LogAppender)

/-- The appenders without a formatter of their own take the one of the logger. -/
def setFormatter (val : Option FormatterPtr) : Logger × (AppenderPtr → LogAppender) :=
  ({ l with m_formatter := val },
    l.m_appenders.foldl (fun heap i =>
      if (heap i).m_hasFormatter then heap
      else Function.update heap i { heap i with m_formatter := val }) heap)

/-- `setFormatter` with a pattern, for which a formatter is made at `addr`. -/
def setPattern (addr : Nat) (val : String) : Logger × (AppenderPtr → LogAppender) :=
  let new_val := LogFormatter.new val
  if new_val.isError then (l, heap) else l.setFormatter heap (some ⟨addr, new_val⟩)

def addAppender (appender : AppenderPtr) : Logger × (AppenderPtr → LogAppender) :=
  ({ l with m_appenders := l.m_appenders ++ [appender] },
    if (heap appender).getFormatter.isNone then
      Function.update heap appender { heap appender with m_formatter := l.m_formatter }
    else heap)

def delAppender (appender : AppenderPtr) : Logger := { l with m_appenders := l.m_appenders.erase appender }

def clearAppenders : Logger := { l with m_appenders := [] }

/-- What the attached appenders write; `none` when one of them has no formatter to write with. -/
def log (strftime : String → Nat → String) (level : LogLevel) (event : LogEvent) : Option (List String) :=
  if l.m_level.toNat ≤ level.toNat then
    l.m_appenders.mapM fun i =>
      if (heap i).m_level.toNat ≤ level.toNat then
        (heap i).m_formatter.map fun f => f.formatter.format strftime level event
      else some ""
  else some []

end Logger

/-- One logger and the appenders. -/
structure Logging where
  logger : Logger
  heap : AppenderPtr → LogAppender

namespace Logging

inductive Act
  | addAppender (appender : AppenderPtr)
  | delAppender (appender : AppenderPtr)
  | clearAppenders
  | setFormatter (val : FormatterPtr)
  | setPattern (addr : Nat) (val : String)
  | appenderSetFormatter (appender : AppenderPtr) (val : Option FormatterPtr)

/-- The logger and the appenders after an operation. -/
def pair (r : Logger × (AppenderPtr → LogAppender)) : Logging := ⟨r.1, r.2⟩

def act (s : Logging) : Act → Logging
  | .addAppender a => pair (s.logger.addAppender s.heap a)
  | .delAppender a => { s with logger := s.logger.delAppender a }
  | .clearAppenders => { s with logger := s.logger.clearAppenders }
  | .setFormatter val => pair (s.logger.setFormatter s.heap (some val))
  | .setPattern addr val => pair (s.logger.setPattern s.heap addr val)
  | .appenderSetFormatter a val => { s with heap := Function.update s.heap a ((s.heap a).setFormatter val) }

def Step (s : Logging) (a : Act) (t : Logging) : Prop := s.act a = t

/-- Every attached appender has a formatter, and without one of its own it has the logger's. -/
def Inherits (s : Logging) : Prop :=
  ∀ a ∈ s.logger.m_appenders, (s.heap a).m_formatter ≠ none ∧
    ((s.heap a).m_hasFormatter = false → (s.heap a).m_formatter = s.logger.m_formatter)

/-- An attached appender keeps a formatter, and an appender without one of its own is attached with no
formatter or with the one that the logger has now. -/
def Current (s : Logging) (a : Act) (_ : Logging) : Prop :=
  match a with
  | .addAppender a => (s.heap a).m_hasFormatter = false → ∀ f, (s.heap a).m_formatter = some f →
      s.logger.m_formatter = some f
  | .appenderSetFormatter a val => a ∈ s.logger.m_appenders → val ≠ none
  | _ => True

variable {s t : Logging} {a : AppenderPtr}

/-- No attached appender is without a formatter when an event is logged. -/
theorem Inherits.log (inherits : s.Inherits) (strftime : String → Nat → String) (level : LogLevel)
    (event : LogEvent) : ∃ texts, s.logger.log s.heap strftime level event = some texts := by
  unfold Logger.log
  split
  · have writes : ∀ i ∈ s.logger.m_appenders, ∃ text, (if (s.heap i).m_level.toNat ≤ level.toNat then
        (s.heap i).m_formatter.map fun f => f.formatter.format strftime level event else some "") = some text := by
      intro i attached
      obtain ⟨f, has⟩ := Option.ne_none_iff_exists'.mp (inherits i attached).1
      split
      · exact ⟨_, by rw [has]; rfl⟩
      · exact ⟨"", rfl⟩
    generalize s.logger.m_appenders = appenders at writes
    induction appenders with
    | nil => exact ⟨[], rfl⟩
    | cons i rest ih =>
      obtain ⟨text, first⟩ := writes i List.mem_cons_self
      obtain ⟨texts, others⟩ := ih fun j attached => writes j (List.mem_cons_of_mem _ attached)
      exact ⟨text :: texts, by simp [first, others]⟩
  · exact ⟨[], rfl⟩

/-- The loop of `setFormatter` over some of the appenders. -/
theorem foldl_inherit (val : Option FormatterPtr) (appenders : List AppenderPtr) (heap : AppenderPtr → LogAppender)
    (a : AppenderPtr) :
    appenders.foldl (fun heap i =>
      if (heap i).m_hasFormatter then heap
      else Function.update heap i { heap i with m_formatter := val }) heap a =
      if a ∈ appenders ∧ (heap a).m_hasFormatter = false then { heap a with m_formatter := val } else heap a := by
  induction appenders generalizing heap with
  | nil => simp
  | cons i rest ih =>
    rw [List.foldl_cons, ih]
    by_cases same : a = i
    · subst same
      cases own : (heap a).m_hasFormatter <;> simp [own]
    · cases own : (heap i).m_hasFormatter <;> simp [same]

/-- `setFormatter` reaches the attached appenders that have no formatter of their own. -/
theorem setFormatter_heap (l : Logger) (heap : AppenderPtr → LogAppender) (val : Option FormatterPtr)
    (a : AppenderPtr) :
    (l.setFormatter heap val).2 a =
      if a ∈ l.m_appenders ∧ (heap a).m_hasFormatter = false then { heap a with m_formatter := val } else heap a :=
  foldl_inherit val l.m_appenders heap a

/-- What always holds: the logger has a formatter, and so has every appender with one of its own. -/
structure Good (s : Logging) : Prop where
  inherits : s.Inherits
  logger : s.logger.m_formatter ≠ none
  own : ∀ a, (s.heap a).m_hasFormatter → (s.heap a).m_formatter ≠ none

theorem Good.setFormatter (good : s.Good) (val : FormatterPtr) :
    Good (pair (s.logger.setFormatter s.heap (some val))) := by
  have heap := setFormatter_heap s.logger s.heap (some val)
  refine ⟨fun a attached => ?_, Option.some_ne_none _, fun a own => ?_⟩
  · simp only [pair, heap]
    split
    · exact ⟨Option.some_ne_none _, fun _ => rfl⟩
    · rename_i own
      refine ⟨(good.inherits a attached).1, fun without => absurd ⟨attached, without⟩ own⟩
  · simp only [pair, heap] at own ⊢
    split
    · exact Option.some_ne_none _
    · rename_i kept
      rw [if_neg kept] at own
      exact good.own a own

theorem Good.setPattern (good : s.Good) (addr : Nat) (val : String) :
    Good (pair (s.logger.setPattern s.heap addr val)) := by
  simp only [Logger.setPattern]
  split
  · exact good
  · exact good.setFormatter ⟨addr, LogFormatter.new val⟩

/-- Fewer appenders inherit as well. -/
theorem Good.detach (good : s.Good) {appenders : List AppenderPtr} (fewer : appenders ⊆ s.logger.m_appenders) :
    Good { s with logger := { s.logger with m_appenders := appenders } } :=
  ⟨fun a attached => good.inherits a (fewer attached), good.logger, good.own⟩

/-- Attaching an appender that has no formatter yet. -/
theorem Good.addNew (good : s.Good) (without : (s.heap a).m_formatter = none) :
    Good (pair (s.logger.addAppender s.heap a)) := by
  have heap : (s.logger.addAppender s.heap a).2 =
      Function.update s.heap a { s.heap a with m_formatter := s.logger.m_formatter } := by
    simp [Logger.addAppender, LogAppender.getFormatter, without]
  refine ⟨fun b attached => ?_, good.logger, fun b own => ?_⟩
  · simp only [pair, heap]
    by_cases same : b = a
    · rw [same, Function.update_self]
      exact ⟨good.logger, fun _ => rfl⟩
    · rw [Function.update_of_ne same]
      rcases List.mem_append.mp attached with old | new
      · exact good.inherits b old
      · exact absurd (List.mem_singleton.mp new) same
  · simp only [pair, heap] at own ⊢
    by_cases same : b = a
    · rw [same, Function.update_self]
      exact good.logger
    · rw [Function.update_of_ne same] at own ⊢
      exact good.own b own

theorem Good.addAppender (good : s.Good) : (Inherits (s.act (.addAppender a)) ↔ s.Current (.addAppender a) t) ∧
    (Inherits (s.act (.addAppender a)) → Good (s.act (.addAppender a))) := by
  cases has : (s.heap a).m_formatter with
  | none =>
    have after : Good (s.act (.addAppender a)) := good.addNew has
    refine ⟨⟨fun _ _ f some => ?_, fun _ => after.inherits⟩, fun _ => after⟩
    cases has.symm.trans some
  | some f =>
    have heap : (s.act (.addAppender a)).heap = s.heap := by
      simp [act, pair, Logger.addAppender, LogAppender.getFormatter, has]
    refine ⟨⟨fun inherits own g some => ?_, fun current b attached => ?_⟩,
      fun inherits => ⟨inherits, good.logger, fun b => heap ▸ good.own b⟩⟩
    · obtain ⟨-, same⟩ := inherits a (List.mem_append_right _ (List.mem_singleton.mpr rfl))
      rw [heap] at same
      exact (same own).symm.trans some
    · rw [heap]
      rcases List.mem_append.mp attached with old | new
      · exact good.inherits b old
      · cases List.mem_singleton.mp new
        refine ⟨has ▸ Option.some_ne_none f, fun own => ?_⟩
        rw [has]
        exact (current own f has).symm

theorem Good.appenderSetFormatter (good : s.Good) (val : Option FormatterPtr) :
    (Inherits (s.act (.appenderSetFormatter a val)) ↔ s.Current (.appenderSetFormatter a val) t) ∧
      (Inherits (s.act (.appenderSetFormatter a val)) → Good (s.act (.appenderSetFormatter a val))) := by
  have set : (s.act (.appenderSetFormatter a val)).heap a = (s.heap a).setFormatter val := Function.update_self ..
  have others : ∀ b, b ≠ a → (s.act (.appenderSetFormatter a val)).heap b = s.heap b :=
    fun b other => Function.update_of_ne other ..
  have own : ∀ b, ((s.act (.appenderSetFormatter a val)).heap b).m_hasFormatter →
      ((s.act (.appenderSetFormatter a val)).heap b).m_formatter ≠ none := by
    intro b
    by_cases same : b = a
    · rw [same, set]
      exact Option.isSome_iff_ne_none.mp
    · rw [others b same]
      exact good.own b
  refine ⟨⟨fun inherits attached without => ?_, fun current b attached => ?_⟩,
    fun inherits => ⟨inherits, good.logger, own⟩⟩
  · refine (inherits a attached).1 ?_
    rw [set]
    exact without
  · by_cases same : b = a
    · subst same
      rw [set]
      have nonnull := current attached
      refine ⟨nonnull, fun without => ?_⟩
      exact absurd (Option.isSome_eq_false_iff.mp without) (by simpa using nonnull)
    · rw [others b same]
      exact good.inherits b attached

theorem Good.step {l : Act} (good : s.Good) (step : s.Step l t) :
    (t.Inherits ↔ s.Current l t) ∧ (t.Inherits → t.Good) := by
  have of_good {u : Logging} (current : s.Current l t) (good : u.Good) :
      (u.Inherits ↔ s.Current l t) ∧ (u.Inherits → u.Good) :=
    ⟨⟨fun _ => current, fun _ => good.inherits⟩, fun _ => good⟩
  subst step
  cases l with
  | addAppender a => exact good.addAppender
  | delAppender a => exact of_good trivial (good.detach List.erase_subset)
  | clearAppenders => exact of_good trivial (good.detach (List.nil_subset _))
  | setFormatter val => exact of_good trivial (good.setFormatter val)
  | setPattern addr val => exact of_good trivial (good.setPattern addr val)
  | appenderSetFormatter a val => exact good.appenderSetFormatter val

/-- A new logger and new appenders. -/
def start (name : String) (addr : Nat) (level : AppenderPtr → LogLevel) : Logging where
  logger := Logger.new name addr
  heap a := { m_level := level a }

theorem good_start (name : String) (addr : Nat) (level : AppenderPtr → LogLevel) : Good (start name addr level) :=
  ⟨nofun, Option.some_ne_none _, nofun⟩

/-- Along every run of the operations every attached appender has its own formatter or the logger's if and
only if no attached appender gives up its formatter and none is attached with a formatter that it has
inherited and that the logger no longer has. -/
theorem run_inherits_iff_current {name : String} {addr : Nat} {level : AppenderPtr → LogLevel} {ls : List Act} :
    Run (Guarded Step fun _ _ t => t.Inherits) (start name addr level) ls t ↔
      Run (Guarded Step Current) (start name addr level) ls t :=
  Run.guarded_congr Good (fun _ _ _ good step => (good.step step).1) (fun _ _ _ good step => (good.step step).2)
    (good_start name addr level)

/-- An attached appender loses its formatter, or gets it from a logger that then takes another one while the
appender is away. -/
theorem not_inherits_cleared_readded :
    (∃ t, Run Step (start "root" 0 fun _ => .DEBUG) [.addAppender 1, .appenderSetFormatter 1 none] t ∧
      (t.heap 1).m_formatter = none ∧ ¬ t.Inherits) ∧
    ∃ t, Run Step (start "root" 0 fun _ => .DEBUG)
        [.addAppender 1, .delAppender 1, .setPattern 2 "%m%n", .addAppender 1] t ∧ ¬ t.Inherits := by
  constructor
  · refine ⟨_, .cons rfl (.cons rfl .start), rfl, fun inherits => ?_⟩
    exact (inherits 1 (List.mem_singleton.mpr rfl)).1 rfl
  · refine ⟨_, .cons rfl (.cons rfl (.cons rfl (.cons rfl .start))), fun inherits => ?_⟩
    have same := (inherits 1 (List.mem_singleton.mpr rfl)).2 rfl
    have addrs := congrArg (Option.map FormatterPtr.addr) same
    exact absurd addrs (by decide)

end Logging
end Sylar
