import Sylar.LogDefine
import Sylar.Logger

/-! The listener on the `logs` variable, which configures the loggers from a new value and the old one. -/

namespace Sylar

/-- The dynamic type of an appender. -/
inductive AppenderType
  | FileLogAppender (m_filename : String)
  | StdoutLogAppender
  deriving DecidableEq

/-- The `LoggerManager`, the appenders, and how many of them and of the formatters have been made. -/
structure LogState where
  loggers : String → Option Logger
  heap : AppenderPtr → LogAppender
  type : AppenderPtr → AppenderType
  made : AppenderPtr
  addr : Nat

namespace LogState

def getLogger (s : LogState) (name : String) : Logger × LogState :=
  match s.loggers name with
  | some logger => (logger, s)
  | none =>
    let logger := Logger.new name s.addr
    (logger, { s with loggers := Function.update s.loggers name (some logger), addr := s.addr + 1 })

/-- The formatter of an appender from its definition; one that is in error is not set. -/
def ownFormatter (ap : LogAppender) (addr : Nat) (formatter : String) : LogAppender :=
  if formatter = "" then ap
  else
    let fmt := LogFormatter.new formatter
    if fmt.isError then ap else ap.setFormatter (some ⟨addr, fmt⟩)

/-- The appender that is made for a definition; of another type there is none. -/
def appenderType (a : LogAppenderDefine) : Option AppenderType :=
  if a.type = 1 then some (.FileLogAppender a.file)
  else if a.type = 2 then some .StdoutLogAppender
  else none

/-- An appender of the new value, whose level is set through the pointer. -/
def addDefined (logger : Logger) (s : LogState) (a : LogAppenderDefine) : Option (Logger × LogState) := do
  let type ← appenderType a
  let ap := ownFormatter (LogAppender.setLevel {} a.level) s.addr a.formatter
  let added := logger.addAppender (Function.update s.heap s.made ap) s.made
  return (added.1, {
    s with heap := added.2, type := Function.update s.type s.made type, made := s.made + 1, addr := s.addr + 1 })

/-- A logger that is new or has been changed. -/
def configure (s : LogState) (i : LogDefine) : Option LogState := do
  let found := s.getLogger i.name
  let logger := found.1.setLevel i.level
  let set := if i.formatter = "" then (logger, found.2.heap)
    else logger.setPattern found.2.heap found.2.addr i.formatter
  let done ← i.appenders.foldlM (fun r a => addDefined r.1 r.2 a)
    (set.1.clearAppenders, { found.2 with heap := set.2, addr := found.2.addr + 1 })
  return { done.2 with loggers := Function.update done.2.loggers i.name (some done.1) }

/-- A logger that the new value does not name. -/
def drop (s : LogState) (i : LogDefine) : LogState :=
  let found := s.getLogger i.name
  { found.2 with
    loggers := Function.update found.2.loggers i.name (some (found.1.setLevel .hundred).clearAppenders) }

end LogState

/-- `std::set::find` of a definition goes by its name. -/
def LogDefines.find (v : LogDefines) (name : String) : Option LogDefine := v.elems.find? fun i => i.name = name

namespace LogState

def listener (s : LogState) (old_value new_value : LogDefines) : Option LogState := do
  let s ← new_value.elems.foldlM (fun s i =>
    if old_value.find i.name = some i then some s else configure s i) s
  old_value.elems.foldlM (fun s i => if (new_value.find i.name).isNone then some (drop s i) else some s) s

end LogState

/-- The loggers and the value of the variable. -/
structure LogConfig where
  state : LogState
  m_val : LogDefines := .empty

namespace LogConfig

/-- `ConfigVar::setValue` -/
def setValue (c : LogConfig) (v : LogDefines) : Option LogConfig :=
  if v = c.m_val then some c
  else do
    let state ← c.state.listener c.m_val v
    return { state, m_val := v }

end LogConfig

/-- What an appender and a logger show: type, level and the pattern that is in effect. -/
structure AppenderView where
  type : AppenderType
  level : LogLevel
  pattern : Option String

structure LoggerView where
  level : LogLevel
  pattern : Option String
  appenders : List AppenderView

namespace LogState

def viewAppender (s : LogState) (a : AppenderPtr) : AppenderView where
  type := s.type a
  level := (s.heap a).m_level
  pattern := (s.heap a).m_formatter.map (·.formatter.getPattern)

def view (s : LogState) (name : String) : Option LoggerView :=
  (s.loggers name).map fun logger => {
    level := logger.m_level
    pattern := logger.m_formatter.map (·.formatter.getPattern)
    appenders := logger.m_appenders.map s.viewAppender }

end LogState

/-- The pattern of a new logger. -/
def defaultPattern : String := "%d{%Y-%m-%d %H:%M:%S}%T%t%T%N%T%F%T[%p]%T[%c]%T%f:%l%T%m%n"

/-- The pattern of the logger, or the one with which it would be made. -/
def patternOf : Option LoggerView → Option String
  | some v => v.pattern
  | none => some defaultPattern

/-- A formatter text that gives a pattern: not empty and without an error. -/
def given (formatter : String) : Option String :=
  if formatter = "" ∨ (LogFormatter.new formatter).isError then none else some formatter

/-- The appender and the logger of a definition, when the logger has the pattern. -/
def LogAppenderDefine.view (a : LogAppenderDefine) (pattern : Option String) : AppenderView where
  type := if a.type = 1 then .FileLogAppender a.file else .StdoutLogAppender
  level := a.level
  pattern := (given a.formatter).or pattern

def LogDefine.view (i : LogDefine) (pattern : Option String) : LoggerView where
  level := i.level
  pattern := pattern
  appenders := i.appenders.map (·.view pattern)

namespace LogState

/-- Every logger has a formatter and appenders of its own that have been made. -/
structure Owned (s : LogState) : Prop where
  formatter : ∀ name logger, s.loggers name = some logger → logger.m_formatter ≠ none
  below : ∀ name logger, s.loggers name = some logger → ∀ a ∈ logger.m_appenders, a < s.made
  apart : ∀ name other logger logger', s.loggers name = some logger → s.loggers other = some logger' →
    ∀ a ∈ logger.m_appenders, a ∈ logger'.m_appenders → name = other

variable {s t : LogState} {logger logger' : Logger}

theorem viewAppender_congr {a : AppenderPtr} (heap : t.heap a = s.heap a) (type : t.type a = s.type a) :
    t.viewAppender a = s.viewAppender a := by
  rw [viewAppender, viewAppender, heap, type]

/-- What the loop over the appenders of a definition does. -/
structure Adds (s t : LogState) (logger logger' : Logger) (appenders : List LogAppenderDefine) : Prop where
  loggers : t.loggers = s.loggers
  level : logger'.m_level = logger.m_level
  formatter : logger'.m_formatter = logger.m_formatter
  made : s.made ≤ t.made
  kept : ∀ a < s.made, t.heap a = s.heap a ∧ t.type a = s.type a
  new : ∃ ptrs, logger'.m_appenders = logger.m_appenders ++ ptrs ∧ (∀ a ∈ ptrs, s.made ≤ a ∧ a < t.made) ∧
    ptrs.map t.viewAppender = appenders.map (·.view (logger.m_formatter.map (·.formatter.getPattern)))

theorem ownFormatter_pattern (level : LogLevel) (addr : Nat) (formatter : String) :
    (ownFormatter (LogAppender.setLevel {} level) addr formatter).m_formatter.map (·.formatter.getPattern) =
      given formatter := by
  unfold ownFormatter given
  by_cases empty : formatter = ""
  · simp [empty, LogAppender.setLevel]
  · by_cases error : (LogFormatter.new formatter).isError <;>
      simp [empty, error, LogAppender.setLevel, LogAppender.setFormatter]

theorem ownFormatter_level (level : LogLevel) (addr : Nat) (formatter : String) :
    (ownFormatter (LogAppender.setLevel {} level) addr formatter).m_level = level := by
  unfold ownFormatter
  split
  · rfl
  · simp only
    split <;> rfl

/-- The appender that is attached shows its own pattern or the one of the logger. -/
theorem addAppender_self (heap : AppenderPtr → LogAppender) (ptr : AppenderPtr) :
    ((logger.addAppender heap ptr).2 ptr).m_level = (heap ptr).m_level ∧
      ((logger.addAppender heap ptr).2 ptr).m_formatter = (heap ptr).m_formatter.or logger.m_formatter := by
  cases has : (heap ptr).m_formatter with
  | none => simp [Logger.addAppender, LogAppender.getFormatter, has]
  | some f => simp [Logger.addAppender, LogAppender.getFormatter, has]

theorem addAppender_of_ne (heap : AppenderPtr → LogAppender) {ptr a : AppenderPtr} (other : a ≠ ptr) :
    (logger.addAppender heap ptr).2 a = heap a := by
  cases has : (heap ptr).m_formatter with
  | none => simp [Logger.addAppender, LogAppender.getFormatter, has, other]
  | some f => simp [Logger.addAppender, LogAppender.getFormatter, has]

theorem appenderType_eq_some {a : LogAppenderDefine} {type : AppenderType} (typed : appenderType a = some type)
    (pattern : Option String) : type = (a.view pattern).type := by
  unfold appenderType at typed
  by_cases file : a.type = 1
  · rw [if_pos file] at typed
    exact (Option.some.inj typed).symm.trans (if_pos file).symm
  · rw [if_neg file] at typed
    split at typed
    · exact (Option.some.inj typed).symm.trans (if_neg file).symm
    · cases typed

theorem adds_addDefined {a : LogAppenderDefine} (added : addDefined logger s a = some (logger', t)) :
    Adds s t logger logger' [a] := by
  rw [addDefined] at added
  obtain ⟨type, typed, done⟩ := Option.bind_eq_some_iff.mp added
  obtain ⟨level, formatter⟩ := @addAppender_self logger
    (Function.update s.heap s.made (ownFormatter (LogAppender.setLevel {} a.level) s.addr a.formatter)) s.made
  rw [Function.update_self] at level formatter
  cases done
  refine ⟨rfl, rfl, rfl, Nat.le_succ _, fun b before => ?_, [s.made], rfl, ?_, ?_⟩
  · have other : b ≠ s.made := Nat.ne_of_lt before
    refine ⟨?_, Function.update_of_ne other ..⟩
    exact (addAppender_of_ne _ other).trans (Function.update_of_ne other ..)
  · intro b new
    cases List.mem_singleton.mp new
    exact ⟨Nat.le_refl _, Nat.lt_succ_self _⟩
  · simp only [List.map_cons, List.map_nil, viewAppender, level, formatter, Function.update_self,
      appenderType_eq_some typed (logger.m_formatter.map (·.formatter.getPattern)), ownFormatter_level,
      Option.map_or, ownFormatter_pattern]
    rfl

theorem Adds.refl (s : LogState) (logger : Logger) : Adds s s logger logger [] :=
  ⟨rfl, rfl, rfl, Nat.le_refl _, fun _ _ => ⟨rfl, rfl⟩, [], (List.append_nil _).symm, nofun, rfl⟩

theorem Adds.trans {u : LogState} {logger'' : Logger} {first rest : List LogAppenderDefine}
    (adds : Adds s t logger logger' first) (more : Adds t u logger' logger'' rest) :
    Adds s u logger logger'' (first ++ rest) := by
  obtain ⟨ptrs, attached, fresh, views⟩ := adds.new
  obtain ⟨ptrs', attached', fresh', views'⟩ := more.new
  refine ⟨more.loggers.trans adds.loggers, more.level.trans adds.level, more.formatter.trans adds.formatter,
    Nat.le_trans adds.made more.made, fun a before => ?_, ptrs ++ ptrs', ?_, fun a member => ?_, ?_⟩
  · obtain ⟨heap, type⟩ := more.kept a (Nat.lt_of_lt_of_le before adds.made)
    obtain ⟨heap', type'⟩ := adds.kept a before
    exact ⟨heap.trans heap', type.trans type'⟩
  · rw [attached', attached, List.append_assoc]
  · rcases List.mem_append.mp member with old | new
    · exact ⟨(fresh a old).1, Nat.lt_of_lt_of_le (fresh a old).2 more.made⟩
    · exact ⟨Nat.le_trans adds.made (fresh' a new).1, (fresh' a new).2⟩
  · have kept : ptrs.map u.viewAppender = ptrs.map t.viewAppender := by
      refine List.map_congr_left fun a member => ?_
      obtain ⟨heap, type⟩ := more.kept a (fresh a member).2
      exact viewAppender_congr heap type
    rw [List.map_append, List.map_append, kept, views, views', adds.formatter]

theorem adds_foldlM {appenders : List LogAppenderDefine}
    (done : appenders.foldlM (fun (r : Logger × LogState) a => addDefined r.1 r.2 a) (logger, s) = some (logger', t)) :
    Adds s t logger logger' appenders := by
  induction appenders generalizing logger s with
  | nil =>
    cases done
    exact .refl ..
  | cons a appenders ih =>
    rw [List.foldlM_cons] at done
    obtain ⟨⟨next, u⟩, first, rest⟩ := Option.bind_eq_some_iff.mp done
    exact (adds_addDefined first).trans (ih rest)

section Get
variable {name : String}

theorem getLogger_heap (s : LogState) (name : String) : (s.getLogger name).2.heap = s.heap ∧
    (s.getLogger name).2.type = s.type ∧ (s.getLogger name).2.made = s.made := by
  unfold getLogger
  split <;> exact ⟨rfl, rfl, rfl⟩

theorem getLogger_of_ne {n : String} (other : n ≠ name) : (s.getLogger name).2.loggers n = s.loggers n := by
  unfold getLogger
  split
  · rfl
  · exact Function.update_of_ne other ..

/-- The logger has the pattern that it had or gets. -/
theorem getLogger_pattern (s : LogState) (name : String) :
    (s.getLogger name).1.m_formatter.map (·.formatter.getPattern) = patternOf (s.view name) := by
  unfold getLogger view
  split
  · rename_i found
    rw [found]
    rfl
  · rename_i absent
    rw [absent]
    rfl

theorem Owned.getLogger_formatter (owned : s.Owned) (name : String) : (s.getLogger name).1.m_formatter ≠ none := by
  unfold getLogger
  split
  · rename_i found
    exact owned.formatter _ _ found
  · exact Option.some_ne_none _

/-- The appenders of another logger are not those of the logger. -/
theorem Owned.getLogger_apart (owned : s.Owned) {n : String} (other : n ≠ name) (there : s.loggers n = some logger)
    {a : AppenderPtr} (attached : a ∈ logger.m_appenders) : a ∉ (s.getLogger name).1.m_appenders := by
  unfold getLogger
  split
  · rename_i found
    exact fun shared => other (owned.apart _ _ _ _ there found a attached shared)
  · exact List.not_mem_nil

end Get

/-- One logger shows something new, and the others what they have shown. -/
structure Shows (s t : LogState) (name : String) (v : LoggerView) : Prop where
  owned : t.Owned
  here : t.view name = some v
  others : ∀ n, n ≠ name → t.view n = s.view n

/-- A logger is put back with a formatter and with no appenders but those made since. -/
theorem Owned.shows (owned : s.Owned) {name : String} (put : t.loggers name = some logger)
    (rest : ∀ n, n ≠ name → t.loggers n = s.loggers n) (formatter : logger.m_formatter ≠ none)
    (new : ∀ a ∈ logger.m_appenders, s.made ≤ a ∧ a < t.made) (made : s.made ≤ t.made)
    (kept : ∀ a < s.made, a ∉ (s.getLogger name).1.m_appenders → t.heap a = s.heap a ∧ t.type a = s.type a) :
    Shows s t name ⟨logger.m_level, logger.m_formatter.map (·.formatter.getPattern),
      logger.m_appenders.map t.viewAppender⟩ := by
  have old : ∀ n l, n ≠ name → t.loggers n = some l → s.loggers n = some l :=
    fun n l other there => (rest n other).symm.trans there
  refine ⟨⟨fun n l there => ?_, fun n l there a attached => ?_, fun n m l l' first second a inFirst inSecond => ?_⟩,
    by rw [view, put]; rfl, fun n other => ?_⟩
  · by_cases same : n = name
    · cases (same ▸ there).symm.trans put
      exact formatter
    · exact owned.formatter n l (old n l same there)
  · by_cases same : n = name
    · cases (same ▸ there).symm.trans put
      exact (new a attached).2
    · exact Nat.lt_of_lt_of_le (owned.below n l (old n l same there) a attached) made
  · by_cases same : n = name
    · by_cases same' : m = name
      · rw [same, same']
      · cases (same ▸ first).symm.trans put
        have before := owned.below m l' (old m l' same' second) a inSecond
        exact absurd (new a inFirst).1 (Nat.not_le_of_lt before)
    · have before := owned.below n l (old n l same first) a inFirst
      by_cases same' : m = name
      · cases (same' ▸ second).symm.trans put
        exact absurd (new a inSecond).1 (Nat.not_le_of_lt before)
      · exact owned.apart n m l l' (old n l same first) (old m l' same' second) a inFirst inSecond
  · unfold view
    rw [rest n other]
    cases there : s.loggers n with
    | none => rfl
    | some l =>
      have appenders : l.m_appenders.map t.viewAppender = l.m_appenders.map s.viewAppender := by
        refine List.map_congr_left fun a attached => ?_
        obtain ⟨heap, type⟩ := kept a (owned.below n l there a attached) (owned.getLogger_apart other there attached)
        exact viewAppender_congr heap type
      simp only [Option.map_some, appenders]

/-- A logger that is dropped keeps its pattern. -/
theorem Owned.drop (owned : s.Owned) (i : LogDefine) :
    Shows s (s.drop i) i.name ⟨.hundred, patternOf (s.view i.name), []⟩ := by
  obtain ⟨heap, type, made⟩ := getLogger_heap s i.name
  have shows' := owned.shows (show (s.drop i).loggers i.name = _ from Function.update_self ..)
    (fun n other => (Function.update_of_ne other ..).trans (getLogger_of_ne other)) (owned.getLogger_formatter i.name)
    nofun (Nat.le_of_eq made.symm) (fun a _ _ => ⟨congrFun heap a, congrFun type a⟩)
  rw [← getLogger_pattern]
  exact shows'

/-- A formatter text that gives a pattern replaces the pattern of the logger. -/
theorem setPattern_pattern (logger : Logger) (heap : AppenderPtr → LogAppender) (addr : Nat) (formatter : String) :
    (if formatter = "" then (logger, heap) else logger.setPattern heap addr formatter).1.m_formatter.map
        (·.formatter.getPattern) = (given formatter).or (logger.m_formatter.map (·.formatter.getPattern)) := by
  unfold given Logger.setPattern
  by_cases empty : formatter = ""
  · simp [empty]
  · by_cases error : (LogFormatter.new formatter).isError <;> simp [empty, error, Logger.setFormatter]

theorem setPattern_kept (logger : Logger) (heap : AppenderPtr → LogAppender) (addr : Nat) (formatter : String) :
    (if formatter = "" then (logger, heap) else logger.setPattern heap addr formatter).1.m_level = logger.m_level ∧
      ∀ a, a ∉ logger.m_appenders →
        (if formatter = "" then (logger, heap) else logger.setPattern heap addr formatter).2 a = heap a := by
  split
  · exact ⟨rfl, fun _ _ => rfl⟩
  simp only [Logger.setPattern]
  split
  · exact ⟨rfl, fun _ _ => rfl⟩
  · refine ⟨rfl, fun a detached => ?_⟩
    rw [Logging.setFormatter_heap, if_neg fun attached => detached attached.1]

/-- A logger that is configured shows its definition, with the pattern that it is given or has had. -/
theorem Owned.configure (owned : s.Owned) {i : LogDefine} (done : s.configure i = some t) :
    Shows s t i.name (i.view ((given i.formatter).or (patternOf (s.view i.name)))) := by
  rw [LogState.configure] at done
  obtain ⟨⟨logger, u⟩, added, done⟩ := Option.bind_eq_some_iff.mp done
  obtain ⟨heap, type, made⟩ := getLogger_heap s i.name
  have adds := adds_foldlM added
  have pattern := setPattern_pattern ((s.getLogger i.name).1.setLevel i.level) (s.getLogger i.name).2.heap
    (s.getLogger i.name).2.addr i.formatter
  obtain ⟨level, kept⟩ := setPattern_kept ((s.getLogger i.name).1.setLevel i.level) (s.getLogger i.name).2.heap
    (s.getLogger i.name).2.addr i.formatter
  obtain ⟨ptrs, attached, fresh, views⟩ := adds.new
  have attached' : logger.m_appenders = ptrs := attached
  have patternEq : logger.m_formatter.map (·.formatter.getPattern) =
      (given i.formatter).or (patternOf (s.view i.name)) := by
    rw [adds.formatter, ← getLogger_pattern]
    exact pattern
  have levelEq : logger.m_level = i.level := adds.level.trans level
  have nonnull : logger.m_formatter ≠ none := by
    intro null
    obtain ⟨f, has⟩ := Option.ne_none_iff_exists'.mp (owned.getLogger_formatter i.name)
    rw [null, ← getLogger_pattern, has] at patternEq
    cases own : given i.formatter <;> simp [own] at patternEq
  cases done
  have shows' := owned.shows (t := { u with loggers := Function.update u.loggers i.name (some logger) })
    (show Function.update u.loggers i.name _ i.name = _ from Function.update_self ..) (fun n other => ?_) nonnull ?_ ?_
    (fun a before detached => ?_)
  · have shown : (⟨logger.m_level, logger.m_formatter.map (·.formatter.getPattern),
        logger.m_appenders.map u.viewAppender⟩ : LoggerView) =
        i.view ((given i.formatter).or (patternOf (s.view i.name))) := by
      rw [LogDefine.view, attached', views, levelEq, patternEq, ← patternEq, adds.formatter]
    rw [← shown]
    exact shows'
  · have later : u.loggers n = (s.getLogger i.name).2.loggers n := congrFun adds.loggers n
    exact (Function.update_of_ne other ..).trans (later.trans (getLogger_of_ne other))
  · intro a member
    rw [attached'] at member
    exact ⟨made ▸ (fresh a member).1, (fresh a member).2⟩
  · exact made ▸ adds.made
  · obtain ⟨heap', type'⟩ := adds.kept a (made.symm ▸ before)
    exact ⟨heap'.trans ((kept a detached).trans (congrFun heap a)), type'.trans (congrFun type a)⟩

/-- A loop over definitions of different names, each of which changes what its own logger shows. -/
theorem Owned.loop {step : LogState → LogDefine → Option LogState}
    (effect : LogDefine → Option LoggerView → Option LoggerView)
    (each : ∀ s t i, Owned s → step s i = some t →
      t.Owned ∧ t.view i.name = effect i (s.view i.name) ∧ ∀ n, n ≠ i.name → t.view n = s.view n)
    {elems : List LogDefine} (names : (elems.map LogDefine.name).Nodup) (owned : s.Owned)
    (done : elems.foldlM step s = some t) :
    t.Owned ∧ (∀ i ∈ elems, t.view i.name = effect i (s.view i.name)) ∧
      ∀ n, n ∉ elems.map LogDefine.name → t.view n = s.view n := by
  induction elems generalizing s with
  | nil =>
    cases done
    exact ⟨owned, nofun, fun _ _ => rfl⟩
  | cons i elems ih =>
    rw [List.map_cons, List.nodup_cons] at names
    rw [List.foldlM_cons] at done
    obtain ⟨u, first, rest⟩ := Option.bind_eq_some_iff.mp done
    obtain ⟨ownedU, here, others⟩ := each s u i owned first
    obtain ⟨ownedT, inTail, outside⟩ := ih names.2 ownedU rest
    refine ⟨ownedT, fun j member => ?_, fun n absent => ?_⟩
    · rcases List.mem_cons.mp member with rfl | inRest
      · rw [outside j.name names.1, here]
      · have differs : j.name ≠ i.name := fun same => names.1 (same ▸ List.mem_map_of_mem inRest)
        rw [inTail j inRest, others j.name differs]
    · rw [List.map_cons, List.mem_cons, not_or] at absent
      rw [outside n absent.2, others n absent.1]

end LogState

section Results
variable {α β : Type}

theorem exists_bind {x : Option α} {f : α → Option β} (first : ∃ a, x = some a) (rest : ∀ a, ∃ b, f a = some b) :
    ∃ b, (x >>= f) = some b := by
  obtain ⟨a, rfl⟩ := first
  exact rest a

/-- A loop whose body always has a result has one. -/
theorem exists_foldlM {f : β → α → Option β} {l : List α} (each : ∀ a ∈ l, ∀ b, ∃ c, f b a = some c) (b : β) :
    ∃ c, l.foldlM f b = some c := by
  induction l generalizing b with
  | nil => exact ⟨b, rfl⟩
  | cons a l ih =>
    obtain ⟨first, others⟩ := List.forall_mem_cons.mp each
    rw [List.foldlM_cons]
    exact exists_bind (first b) (ih others)

end Results

namespace LogDefines
variable {v : LogDefines} {i : LogDefine} {name : String}

theorem names_nodup (v : LogDefines) : (v.elems.map LogDefine.name).Nodup :=
  (List.pairwise_map.mpr (v.sorted.imp of_decide_eq_true)).imp ne_of_lt

theorem find_eq_some_iff : v.find name = some i ↔ i ∈ v.elems ∧ i.name = name := by
  constructor
  · intro found
    exact ⟨List.mem_of_find?_eq_some found, by simpa using List.find?_some found⟩
  · rintro ⟨member, rfl⟩
    cases found : v.find i.name with
    | none =>
      have differs := List.find?_eq_none.mp found i member
      simp at differs
    | some j =>
      have name : j.name = i.name := by simpa using List.find?_some found
      rw [List.inj_on_of_nodup_map v.names_nodup (List.mem_of_find?_eq_some found) member name]

theorem find_eq_none_iff : v.find name = none ↔ name ∉ v.elems.map LogDefine.name := by
  rw [find, List.find?_eq_none, List.mem_map]
  simp

end LogDefines

/-- What the listener makes of what a logger shows. -/
def reconfigured (old_value new_value : LogDefines) (name : String) (shown : Option LoggerView) : Option LoggerView :=
  match new_value.find name with
  | some i => if old_value.find name = some i then shown else some (i.view ((given i.formatter).or (patternOf shown)))
  | none => if (old_value.find name).isSome then some ⟨.hundred, patternOf shown, []⟩ else shown

namespace LogState

variable {s t : LogState}

/-- A logger of the new value is configured unless the old value has it as well. -/
theorem Owned.configure_changed (old_value : LogDefines) {i : LogDefine} (owned : s.Owned)
    (done : (if old_value.find i.name = some i then some s else s.configure i) = some t) :
    t.Owned ∧ t.view i.name = (if old_value.find i.name = some i then s.view i.name
      else some (i.view ((given i.formatter).or (patternOf (s.view i.name))))) ∧
      ∀ n, n ≠ i.name → t.view n = s.view n := by
  split at done
  · rename_i unchanged
    cases done
    exact ⟨owned, by rw [if_pos unchanged], fun _ _ => rfl⟩
  · rename_i changed
    have shows' := owned.configure done
    exact ⟨shows'.owned, by rw [if_neg changed, shows'.here], shows'.others⟩

/-- A logger of the old value is dropped unless the new value names it. -/
theorem Owned.drop_unnamed (new_value : LogDefines) {i : LogDefine} (owned : s.Owned)
    (done : (if (new_value.find i.name).isNone then some (s.drop i) else some s) = some t) :
    t.Owned ∧ t.view i.name = (if (new_value.find i.name).isNone then some ⟨.hundred, patternOf (s.view i.name), []⟩
      else s.view i.name) ∧ ∀ n, n ≠ i.name → t.view n = s.view n := by
  split at done
  · rename_i unnamed
    cases done
    have shows' := owned.drop i
    exact ⟨shows'.owned, by rw [if_pos unnamed, shows'.here], shows'.others⟩
  · rename_i named
    cases done
    exact ⟨owned, by rw [if_neg named], fun _ _ => rfl⟩

/-- The listener reconfigures every logger. -/
theorem Owned.listener {old_value new_value : LogDefines} (owned : s.Owned)
    (done : s.listener old_value new_value = some t) :
    t.Owned ∧ ∀ name, t.view name = reconfigured old_value new_value name (s.view name) := by
  rw [LogState.listener] at done
  obtain ⟨u, first, second⟩ := Option.bind_eq_some_iff.mp done
  obtain ⟨ownedU, configured, others⟩ := owned.loop
    (fun i shown => if old_value.find i.name = some i then shown
      else some (i.view ((given i.formatter).or (patternOf shown))))
    (fun _ _ _ owned done => owned.configure_changed old_value done) new_value.names_nodup first
  obtain ⟨ownedT, dropped, kept⟩ := ownedU.loop
    (fun i shown => if (new_value.find i.name).isNone then some ⟨.hundred, patternOf shown, []⟩ else shown)
    (fun _ _ _ owned done => owned.drop_unnamed new_value done) old_value.names_nodup second
  refine ⟨ownedT, fun name => ?_⟩
  unfold reconfigured
  cases new : new_value.find name with
  | some i =>
    obtain ⟨member, rfl⟩ := LogDefines.find_eq_some_iff.mp new
    refine Eq.trans ?_ (configured i member)
    cases old : old_value.find i.name with
    | none => exact kept i.name (LogDefines.find_eq_none_iff.mp old)
    | some j =>
      obtain ⟨inOld, same⟩ := LogDefines.find_eq_some_iff.mp old
      have stays := dropped j inOld
      rw [same, new] at stays
      exact stays
  | none =>
    have untouched := others name (LogDefines.find_eq_none_iff.mp new)
    cases old : old_value.find name with
    | none => exact (kept name (LogDefines.find_eq_none_iff.mp old)).trans untouched
    | some j =>
      obtain ⟨inOld, rfl⟩ := LogDefines.find_eq_some_iff.mp old
      have leaves := dropped j inOld
      rw [new, untouched] at leaves
      exact leaves

/-- The appenders go to a file or to the standard output. -/
def Typed (i : LogDefine) : Prop := ∀ a ∈ i.appenders, a.type = 1 ∨ a.type = 2

theorem exists_configure (s : LogState) {i : LogDefine} (typed : Typed i) : ∃ t, s.configure i = some t := by
  have added : ∀ a ∈ i.appenders, ∀ r : Logger × LogState, ∃ done, addDefined r.1 r.2 a = some done := by
    intro a member r
    have type : ∃ type, appenderType a = some type := by
      rcases typed a member with file | stdout
      · exact ⟨_, if_pos file⟩
      · exact ⟨_, (if_neg (by omega)).trans (if_pos stdout)⟩
    exact exists_bind type fun type => ⟨_, rfl⟩
  exact exists_bind (exists_foldlM added _) fun done => ⟨_, rfl⟩

theorem exists_listener (s : LogState) (old_value : LogDefines) {new_value : LogDefines}
    (typed : ∀ i ∈ new_value.elems, Typed i) : ∃ t, s.listener old_value new_value = some t := by
  refine exists_bind (exists_foldlM (fun i member s => ?_) s) fun t => exists_foldlM (fun i _ s => ?_) t
  · split
    · exact ⟨s, rfl⟩
    · exact s.exists_configure (typed i member)
  · split
    · exact ⟨_, rfl⟩
    · exact ⟨_, rfl⟩

end LogState

namespace LogConfig

/-- The loggers as they are before the first value: each has the pattern of a new one. -/
structure Initial (c : LogConfig) : Prop where
  owned : c.state.Owned
  pattern : ∀ name, patternOf (c.state.view name) = some defaultPattern
  value : c.m_val = .empty

def apply (c : LogConfig) (vs : List LogDefines) : Option LogConfig := vs.foldlM setValue c

/-- The latest formatter that a value has given to the name. -/
def latest (vs : List LogDefines) (name : String) : String :=
  vs.foldl (fun pattern v => ((v.find name).bind fun i => given i.formatter).getD pattern) defaultPattern

/-- What the values so far have made of the loggers. -/
structure Follows (vs : List LogDefines) (c : LogConfig) : Prop where
  owned : c.state.Owned
  pattern : ∀ name, patternOf (c.state.view name) = some (latest vs name)
  named : ∀ i ∈ c.m_val.elems, c.state.view i.name = some (i.view (some (latest vs i.name)))
  given : ∀ i ∈ c.m_val.elems, ∀ f, given i.formatter = some f → latest vs i.name = f
  dropped : ∀ v ∈ vs, ∀ i ∈ v.elems, c.m_val.find i.name = none →
    ∃ pattern, c.state.view i.name = some ⟨.hundred, pattern, []⟩

theorem latest_concat (vs : List LogDefines) (v : LogDefines) (name : String) :
    latest (vs ++ [v]) name = ((v.find name).bind fun i => Sylar.given i.formatter).getD (latest vs name) := by
  rw [latest, List.foldl_append]
  rfl

variable {c d : LogConfig} {vs : List LogDefines} {v : LogDefines}

theorem Initial.follows (initial : c.Initial) : Follows [] c := by
  have none : ∀ i, i ∉ c.m_val.elems := by
    intro i member
    rw [initial.value] at member
    cases member
  exact ⟨initial.owned, initial.pattern, fun i member => absurd member (none i),
    fun i member => absurd member (none i), nofun⟩

/-- A definition that the value already has gives the pattern that the logger has. -/
theorem Follows.getD_given (follows : Follows vs c) {i : LogDefine} (member : i ∈ c.m_val.elems) :
    (Sylar.given i.formatter).getD (latest vs i.name) = latest vs i.name := by
  cases own : Sylar.given i.formatter with
  | none => rfl
  | some f => exact (follows.given i member f own).symm

theorem Follows.same (follows : Follows vs c) : Follows (vs ++ [c.m_val]) c := by
  have latestEq : ∀ name, latest (vs ++ [c.m_val]) name = latest vs name := by
    intro name
    rw [latest_concat]
    cases found : c.m_val.find name with
    | none => rfl
    | some i =>
      obtain ⟨member, rfl⟩ := LogDefines.find_eq_some_iff.mp found
      exact follows.getD_given member
  refine ⟨follows.owned, fun name => ?_, fun i member => ?_, fun i member f own => ?_,
    fun w earlier i member absent => ?_⟩
  · rw [latestEq]
    exact follows.pattern name
  · rw [latestEq]
    exact follows.named i member
  · rw [latestEq]
    exact follows.given i member f own
  · rcases List.mem_append.mp earlier with old | new
    · exact follows.dropped w old i member absent
    · cases List.mem_singleton.mp new
      cases (LogDefines.find_eq_some_iff.mpr ⟨member, rfl⟩).symm.trans absent

theorem Follows.listener (follows : Follows vs c) {state : LogState} (done : c.state.listener c.m_val v = some state) :
    Follows (vs ++ [v]) { state, m_val := v } := by
  obtain ⟨owned, view⟩ := follows.owned.listener done
  have named : ∀ i ∈ v.elems, state.view i.name = some (i.view (some (latest (vs ++ [v]) i.name))) := by
    intro i member
    have found : v.find i.name = some i := LogDefines.find_eq_some_iff.mpr ⟨member, rfl⟩
    rw [view, latest_concat, reconfigured, found]
    simp only [Option.bind_some]
    split
    · rename_i unchanged
      obtain ⟨inOld, -⟩ := LogDefines.find_eq_some_iff.mp unchanged
      rw [follows.named i inOld, follows.getD_given inOld]
    · rw [follows.pattern, Option.or_some]
  refine ⟨owned, fun name => ?_, named, fun i member f own => ?_, fun w earlier i member absent => ?_⟩
  · cases found : v.find name with
    | some i =>
      obtain ⟨member, rfl⟩ := LogDefines.find_eq_some_iff.mp found
      rw [named i member]
      rfl
    | none =>
      rw [view, latest_concat, reconfigured, found]
      refine Eq.trans ?_ (follows.pattern name)
      cases c.m_val.find name <;> rfl
  · rw [latest_concat, LogDefines.find_eq_some_iff.mpr ⟨member, rfl⟩, Option.bind_some, own]
    rfl
  · rw [view, reconfigured, absent]
    cases old : c.m_val.find i.name with
    | some j => exact ⟨_, rfl⟩
    | none =>
      rcases List.mem_append.mp earlier with before | new
      · exact follows.dropped w before i member old
      · cases List.mem_singleton.mp new
        cases (LogDefines.find_eq_some_iff.mpr ⟨member, rfl⟩).symm.trans absent

theorem Follows.setValue (follows : Follows vs c) (set : c.setValue v = some d) : Follows (vs ++ [v]) d := by
  unfold LogConfig.setValue at set
  split at set
  · rename_i same
    cases set
    cases same
    exact follows.same
  · obtain ⟨state, done, set⟩ := Option.bind_eq_some_iff.mp set
    cases set
    exact follows.listener done

theorem Follows.apply (follows : Follows vs c) {ws : List LogDefines} (applied : c.apply ws = some d) :
    Follows (vs ++ ws) d := by
  induction ws generalizing vs c with
  | nil =>
    cases applied
    rwa [List.append_nil]
  | cons w ws ih =>
    rw [LogConfig.apply, List.foldlM_cons] at applied
    obtain ⟨next, first, rest⟩ := Option.bind_eq_some_iff.mp applied
    have all := ih (follows.setValue first) rest
    rwa [List.append_assoc, List.singleton_append] at all

theorem exists_setValue (c : LogConfig) (typed : ∀ i ∈ v.elems, LogState.Typed i) : ∃ d, c.setValue v = some d := by
  rw [setValue]
  split
  · exact ⟨c, rfl⟩
  · exact exists_bind (c.state.exists_listener c.m_val typed) fun state => ⟨_, rfl⟩

theorem exists_apply (c : LogConfig) (typed : ∀ v ∈ vs, ∀ i ∈ v.elems, LogState.Typed i) :
    ∃ d, c.apply vs = some d :=
  exists_foldlM (fun v member c => c.exists_setValue (typed v member)) c

theorem m_val_of_setValue (set : c.setValue v = some d) : d.m_val = v := by
  unfold LogConfig.setValue at set
  split at set
  · rename_i same
    cases set
    exact same.symm
  · obtain ⟨state, -, set⟩ := Option.bind_eq_some_iff.mp set
    cases set
    rfl

theorem Initial.apply (initial : c.Initial) (applied : c.apply (vs ++ [v]) = some d) :
    Follows (vs ++ [v]) d ∧ d.m_val = v := by
  refine ⟨initial.follows.apply applied, ?_⟩
  rw [LogConfig.apply, List.foldlM_append] at applied
  obtain ⟨before, -, last⟩ := Option.bind_eq_some_iff.mp applied
  rw [List.foldlM_cons] at last
  obtain ⟨after, set, done⟩ := Option.bind_eq_some_iff.mp last
  cases done
  exact m_val_of_setValue set

/-- Every sequence of values whose appenders are of the two types is applied. Of two sequences that end in the same
set each logger of the set shows its definition, with the latest formatter that its own sequence has given to the name,
and so the same when the set gives one; each logger that only earlier values have named is off. -/
theorem view_of_last {c : LogConfig} (initial : c.Initial) :
    (∀ vs : List LogDefines, (∀ v ∈ vs, ∀ i ∈ v.elems, LogState.Typed i) → ∃ d, c.apply vs = some d) ∧
    ∀ (vs₁ vs₂ : List LogDefines) (D : LogDefines) (c₁ c₂ : LogConfig),
      c.apply (vs₁ ++ [D]) = some c₁ → c.apply (vs₂ ++ [D]) = some c₂ →
      (∀ i ∈ D.elems, c₁.state.view i.name = some (i.view (some (latest (vs₁ ++ [D]) i.name))) ∧
        c₂.state.view i.name = some (i.view (some (latest (vs₂ ++ [D]) i.name))) ∧
        (given i.formatter ≠ none → c₁.state.view i.name = c₂.state.view i.name)) ∧
      (∀ v ∈ vs₁, ∀ i ∈ v.elems, D.find i.name = none → ∃ p, c₁.state.view i.name = some ⟨.hundred, p, []⟩) ∧
      ∀ v ∈ vs₂, ∀ i ∈ v.elems, D.find i.name = none → ∃ p, c₂.state.view i.name = some ⟨.hundred, p, []⟩ := by
  refine ⟨fun vs typed => c.exists_apply typed, fun vs₁ vs₂ D c₁ c₂ first second => ?_⟩
  obtain ⟨follows₁, value₁⟩ := initial.apply first
  obtain ⟨follows₂, value₂⟩ := initial.apply second
  refine ⟨fun i member => ?_, fun v earlier i member absent => ?_, fun v earlier i member absent => ?_⟩
  · have view₁ := follows₁.named i (value₁ ▸ member)
    have view₂ := follows₂.named i (value₂ ▸ member)
    refine ⟨view₁, view₂, fun own => ?_⟩
    obtain ⟨f, gives⟩ := Option.ne_none_iff_exists'.mp own
    rw [view₁, view₂, follows₁.given i (value₁ ▸ member) f gives, follows₂.given i (value₂ ▸ member) f gives]
  · exact follows₁.dropped v (List.mem_append_left _ earlier) i member (value₁ ▸ absent)
  · exact follows₂.dropped v (List.mem_append_left _ earlier) i member (value₂ ▸ absent)

/-- The root logger with its appender, as the constructor of `LoggerManager` makes it. -/
def initial : LogConfig where
  state := {
    loggers := Function.update (fun _ => none) "root" (some ((Logger.new "root" 0).addAppender (fun _ => {}) 0).1)
    heap := ((Logger.new "root" 0).addAppender (fun _ => {}) 0).2
    type := fun _ => .StdoutLogAppender
    made := 1
    addr := 1 }

theorem initial_initial : initial.Initial := by
  have only : ∀ name logger, initial.state.loggers name = some logger →
      name = "root" ∧ logger = ((Logger.new "root" 0).addAppender (fun _ => {}) 0).1 := by
    intro name logger there
    by_cases root : name = "root"
    · subst root
      exact ⟨rfl, (Option.some.inj there).symm⟩
    · simp only [initial, Function.update_of_ne root] at there
      cases there
  refine ⟨⟨fun name logger there => ?_, fun name logger there a attached => ?_, ?_⟩, fun name => ?_, rfl⟩
  · rw [(only name logger there).2]
    exact Option.some_ne_none _
  · rw [(only name logger there).2] at attached
    cases List.mem_singleton.mp attached
    exact Nat.zero_lt_one
  · intro name other logger logger' first second _ _ _
    exact (only name logger first).1.trans (only other logger' second).1.symm
  · by_cases root : name = "root"
    · subst root
      rfl
    · simp only [LogState.view, initial, Function.update_of_ne root]
      rfl

/-- One logger with a formatter and an appender to the standard output. -/
def formatted (formatter : String) : LogDefines where
  elems := [{ name := "x", level := .INFO, formatter, appenders := [{ type := 2 }] }]
  sorted := List.pairwise_singleton _ _

/-- The formatter of the first value stays when the second one gives none. -/
theorem view_of_last_formatted : ∃ c₁ c₂, initial.apply [formatted "%m", formatted ""] = some c₁ ∧
    initial.apply [formatted ""] = some c₂ ∧
    ∀ i ∈ (formatted "").elems, c₁.state.view i.name = some (i.view (some "%m")) ∧
      c₂.state.view i.name = some (i.view (some defaultPattern)) := by
  obtain ⟨total, shows⟩ := view_of_last initial_initial
  have typed : ∀ v ∈ [formatted "%m", formatted ""], ∀ i ∈ v.elems, LogState.Typed i := by
    unfold LogState.Typed
    decide
  obtain ⟨c₁, first⟩ := total [formatted "%m", formatted ""] typed
  obtain ⟨c₂, second⟩ := total [formatted ""] fun v member => typed v (List.mem_cons_of_mem _ member)
  refine ⟨c₁, c₂, first, second, fun i member => ?_⟩
  obtain ⟨view₁, view₂, -⟩ := (shows [formatted "%m"] [] (formatted "") c₁ c₂ first second).1 i member
  cases List.mem_singleton.mp member
  exact ⟨view₁, view₂⟩

/-- So the two sequences, which end in the same set, leave loggers of different patterns. -/
theorem not_same_formatted : ∃ c₁ c₂, initial.apply [formatted "%m", formatted ""] = some c₁ ∧
    initial.apply [formatted ""] = some c₂ ∧ patternOf (c₁.state.view "x") = some "%m" ∧
    patternOf (c₂.state.view "x") = some defaultPattern ∧ "%m" ≠ defaultPattern :=
  ⟨_, _, rfl, rfl, rfl, rfl, by decide⟩

end LogConfig
end Sylar
