import Sylar.ScopedLock

/-! The locks of the library, and for each function that takes one the order in which it takes and
releases them. Of a call it is given what decides that: the branch it takes, and what it does meanwhile, which
includes what it runs of the caller's code. -/

namespace Sylar.Locks
open LockOrder Machine

/-- The members `m_mutex`, by the class and the object; `GetMutex()` of `Config` is `config`, the logger
that `LoggerManager` keeps as `m_root` is `rootLogger`, and a mutex of the caller's own has the place in the order that
the caller gives it. -/
inductive LockName
  | config
  | configVar (var : Nat)
  | loggerManager
  | logger (logger : Nat)
  | rootLogger
  | appender (appender : Nat)
  | fdManager
  | ioManager (manager : Nat)
  | fdContext (manager fd : Nat)
  | scheduler (manager : Nat)
  | timerManager (manager : Nat)
  | caller (place mutex : Nat)
  deriving DecidableEq, Repr

namespace LockName

/-- A function that holds a lock takes another one only if it comes later here. -/
def rank : LockName → Nat
  | config => 0
  | configVar _ => 1
  | loggerManager | ioManager _ | timerManager _ => 2
  | fdContext _ _ => 3
  | scheduler _ => 4
  | logger _ => 5
  | rootLogger => 6
  | appender _ => 7
  | fdManager => 8
  | caller place _ => place

end LockName

/-- What a function does to locks. -/
abbrev LockScript := List (Op LockName)

/-- Code of the caller that the library runs while the locks that it holds have ranks below `k`: what the code locks
comes later in the order. It is a callback, a copy or the destructor of one, an operator of a value's type, or a
member function of a class that the caller derives from one of the library's. -/
structure CallersCode (k : Nat) where
  script : LockScript
  fits : Fits LockName.rank k script

/-- A guard over a whole scope. -/
def locked (mutex : LockName) (inner : LockScript := []) : LockScript :=
  ScopedLockImpl.scope .exclusive mutex [.ops inner]

def readLocked (mutex : LockName) (inner : LockScript := []) : LockScript :=
  ScopedLockImpl.scope .shared mutex [.ops inner]

/-- The guard is unlocked before the end of its scope. -/
def unlocked (mode : Mode) (mutex : LockName) (inner after : LockScript) : LockScript :=
  ScopedLockImpl.scope mode mutex [.ops inner, .unlock, .ops after]

namespace FdManager

/-- `get` finds the context or is not to make one, or it makes one. -/
def get (creates : Bool) : LockScript :=
  if creates then unlocked .shared .fdManager [] (locked .fdManager) else readLocked .fdManager

end FdManager

/-! The log. -/

/-- The `write` that a file stream calls is the hooked one. -/
def hookedWrites (writes : Nat) : LockScript := (List.replicate writes (FdManager.get false)).flatten

/-- `StdoutLogAppender::log`, and `FileLogAppender::log`, which calls `reopen()` where the second has changed,
where the level is high enough, and `log` of an appender of the caller's. With each use of the stream go the writes that
it makes. -/
inductive AppenderLog
  | stdout (appender : Nat)
  | file (appender : Nat) (reopened : Option Nat) (writes : Nat)
  | caller (code : CallersCode 7)

/-- `FileLogAppender::reopen`. -/
def reopen (appender writes : Nat) : LockScript := locked (.appender appender) (hookedWrites writes)

def AppenderLog.script : AppenderLog → LockScript
  | .stdout appender => locked (.appender appender)
  | .file appender none writes => locked (.appender appender) (hookedWrites writes)
  | .file appender (some before) writes =>
    reopen appender before ++ locked (.appender appender) (hookedWrites writes)
  | .caller code => code.script

/-- `Logger::log`: the level is too low, the appenders of the logger take the event, or `m_root` does, whose
own level may be too low. The root logger has no `m_root`. -/
inductive LoggerLog
  | below
  | root (lines : List AppenderLog)
  | own (logger : Nat) (lines : List AppenderLog)
  | viaRoot (logger : Nat) (lines : Option (List AppenderLog))

def LoggerLog.script : LoggerLog → LockScript
  | .below => []
  | .root lines => locked .rootLogger (lines.flatMap AppenderLog.script)
  | .own logger lines => locked (.logger logger) (lines.flatMap AppenderLog.script)
  | .viaRoot logger none => locked (.logger logger)
  | .viaRoot logger (some lines) => locked (.logger logger) (locked .rootLogger (lines.flatMap AppenderLog.script))

/-- The lock of a logger: of the root logger, or of another one. -/
def loggerLock : Option Nat → LockName
  | none => .rootLogger
  | some logger => .logger logger

/-- `toYamlString` of an appender. -/
inductive AppenderYaml
  | own (appender : Nat)
  | caller (code : CallersCode 7)

def AppenderYaml.script : AppenderYaml → LockScript
  | .own appender => locked (.appender appender)
  | .caller code => code.script

/-- An appender is destroyed: a stream that is closed writes. -/
inductive AppenderEnd
  | stdout
  | file (writes : Nat)
  | caller (code : CallersCode 7)

def AppenderEnd.script : AppenderEnd → LockScript
  | .stdout => []
  | .file writes => hookedWrites writes
  | .caller code => code.script

namespace Logger

def setFormatter (logger : Option Nat) (appenders : List Nat) : LockScript :=
  locked (loggerLock logger) (appenders.flatMap fun appender => locked (.appender appender))

def toYamlString (logger : Option Nat) (appenders : List AppenderYaml) : LockScript :=
  locked (loggerLock logger) (appenders.flatMap AppenderYaml.script)

/-- `clearAppenders` and `delAppender`, which may destroy appenders. -/
def clearAppenders (logger : Option Nat) (destroyed : List AppenderEnd) : LockScript :=
  locked (loggerLock logger) (destroyed.flatMap AppenderEnd.script)

/-- `getFormatter()` of the appender, and the write of its `m_formatter` where it has none. -/
def addAppender (logger : Option Nat) (appender : Nat) (inherits : Bool) : LockScript :=
  locked (loggerLock logger)
    (locked (.appender appender) ++ if inherits then locked (.appender appender) else [])

end Logger

/-- `LoggerManager::toYamlString`, for the loggers and their appenders. -/
def LoggerManager.toYamlString (loggers : List (Option Nat × List AppenderYaml)) : LockScript :=
  locked .loggerManager (loggers.flatMap fun l => Logger.toYamlString l.1 l.2)

/-- One definition, as the listener of `LogIniter` applies it: the logger, the appenders of the logger as
`setFormatter` finds them, where there is a formatter, the old appenders that are destroyed, and the new appenders, each
with whether it is a file appender, whether it has a formatter of its own, and whether it inherits one. -/
structure LogApplied where
  logger : Option Nat
  formatter : Option (List Nat)
  cleared : List AppenderEnd
  appenders : List (Nat × Bool × Bool × Bool)

def LogApplied.script (d : LogApplied) : LockScript :=
  locked .loggerManager ++ (match d.formatter with
    | some appenders => Logger.setFormatter d.logger appenders
    | none => []) ++ Logger.clearAppenders d.logger d.cleared ++
  d.appenders.flatMap fun (appender, file, formatter, inherits) =>
    (if file then reopen appender 0 else []) ++ (if formatter then locked (.appender appender) else []) ++
      Logger.addAppender d.logger appender inherits

/-! The configuration. -/

/-- A listener: that of `LogIniter`, with the loggers that it deletes; that of `_HookIniter`; or the caller's. -/
inductive Listener
  | logs (log : LoggerLog) (applied : List LogApplied) (deleted : List (Option Nat × List AppenderEnd))
  | tcpConnectTimeout (log : LoggerLog)
  | caller (code : CallersCode 2)

def Listener.script : Listener → LockScript
  | .logs log applied deleted => log.script ++ applied.flatMap LogApplied.script ++
      deleted.flatMap fun (logger, destroyed) => locked .loggerManager ++ Logger.clearAppenders logger destroyed
  | .tcpConnectTimeout log => log.script
  | .caller code => code.script

namespace ConfigVar

/-- What comes of `setValue`: the value is compared with the old one and is the same, it is stored after the listeners
have been called, or one of them throws. -/
inductive SetPath
  | same (compares : CallersCode 2)
  | stored (compares : CallersCode 2) (listeners : List Listener) (assigns : CallersCode 2)
  | thrown (compares : CallersCode 2) (listeners : List Listener)

def setValue (var : Nat) : SetPath → LockScript
  | .same compares => readLocked (.configVar var) compares.script
  | .stored compares listeners assigns =>
    readLocked (.configVar var) (compares.script ++ listeners.flatMap Listener.script) ++
      locked (.configVar var) assigns.script
  | .thrown compares listeners => readLocked (.configVar var) (compares.script ++ listeners.flatMap Listener.script)

/-- The conversion throws, or `setValue` is called, and what is caught is logged. -/
def fromString (var : Nat) (converts : CallersCode 0) (set : Option SetPath) (caught : LoggerLog) : LockScript :=
  converts.script ++ (match set with
    | some set => setValue var set
    | none => []) ++ caught.script

/-- What the conversion throws is logged. -/
def toString (var : Nat) (converts : CallersCode 2) (caught : Option LoggerLog) : LockScript :=
  readLocked (.configVar var) converts.script ++ match caught with
    | some event => event.script
    | none => []

end ConfigVar

namespace Config

/-- `Lookup` with a default value: the name is there, it is there with another type, it is not valid, or it
is added with a copy of the value. -/
inductive LookupPath
  | exists (log : LoggerLog)
  | mismatch (var : Nat) (converts : CallersCode 2) (caught : Option LoggerLog) (log : LoggerLog)
  | invalid (log : LoggerLog)
  | added (copies : CallersCode 1)

def lookup : LookupPath → LockScript
  | .exists log | .invalid log => locked .config log.script
  | .mismatch var converts caught log => locked .config (ConfigVar.toString var converts caught ++ log.script)
  | .added copies => locked .config copies.script

/-- `LoadFromYaml`: the invalid names are logged, and each variable that is found is set. -/
def loadFromYaml (invalid : List LoggerLog)
    (nodes : List (Option (Nat × CallersCode 0 × Option ConfigVar.SetPath × LoggerLog))) : LockScript :=
  invalid.flatMap LoggerLog.script ++ nodes.flatMap fun node => readLocked .config ++ match node with
    | some (var, converts, set, caught) => ConfigVar.fromString var converts set caught
    | none => []

end Config

/-! The descriptors, the events, the tasks and the timers. -/

/-- `tickle()`: that of `Scheduler` logs; that of `IOManager` does nothing while no worker idles, and else
writes to its pipe, with the hooked `write` where the thread has the hook enabled; and a class of the caller's may have
another one. -/
inductive Tickle
  | log (log : LoggerLog)
  | nobody
  | write (hooked : Bool)
  | caller (code : CallersCode 4)

def Tickle.script : Tickle → LockScript
  | .log event => event.script
  | .nobody | .write false => []
  | .write true => FdManager.get false
  | .caller code => code.script

namespace Scheduler

/-- Both overloads of `schedule`, which copy callbacks and drop copies, with the call of `tickle()` if there is one. -/
def schedule (scheduler : Nat) (copies : CallersCode 5) (tickle : Option Tickle) : LockScript :=
  locked (.scheduler scheduler) copies.script ++ match tickle with
    | some tickle => tickle.script
    | none => []

/-- `start` returns at once, or it makes the threads, where a failure is logged. -/
def start (scheduler : Nat) (failure : Option (Option LoggerLog)) : LockScript :=
  match failure with
  | none => locked (.scheduler scheduler)
  | some none => unlocked .exclusive (.scheduler scheduler) [] []
  | some (some log) => locked (.scheduler scheduler) log.script

end Scheduler

namespace IOManager

/-- What is done under the lock of an `FdContext`: failures are logged, `resetContext` destroys fibers, which log, and
callbacks, and events are triggered, each into the queue of its scheduler. -/
inductive UnderFdContext
  | log (log : LoggerLog)
  | resetContext (code : CallersCode 4)
  | triggerEvent (scheduler : Nat) (copies : CallersCode 5) (tickle : Option Tickle)

def UnderFdContext.script : UnderFdContext → LockScript
  | .log event => event.script
  | .resetContext code => code.script
  | .triggerEvent scheduler copies tickle => Scheduler.schedule scheduler copies tickle

def fdContext (manager fd : Nat) (steps : List UnderFdContext) : LockScript :=
  locked (.fdContext manager fd) (steps.flatMap UnderFdContext.script)

/-- `addEvent`, which resizes `m_FdContexts` where that is too short. -/
def addEvent (manager fd : Nat) (resizes : Bool) (steps : List UnderFdContext) : LockScript :=
  unlocked .shared (.ioManager manager) []
    ((if resizes then locked (.ioManager manager) else []) ++ fdContext manager fd steps)

/-- `delEvent`, `cancelEvent` and `cancelAll`, which return at once where `m_FdContexts` is too short. -/
def remove (manager fd : Nat) (steps : Option (List UnderFdContext)) : LockScript :=
  match steps with
  | none => readLocked (.ioManager manager)
  | some steps => unlocked .shared (.ioManager manager) [] (fdContext manager fd steps)

end IOManager

namespace TimerManager

/-- `onTimerInsertedAtfront()` of `IOManager`, or of a class of the caller's. -/
inductive InsertedAtFront
  | tickle (how : Tickle)
  | caller (code : CallersCode 0)

def InsertedAtFront.script : InsertedAtFront → LockScript
  | .tickle how => how.script
  | .caller code => code.script

/-- `addTimer` and the part of `reset` that inserts the timer: the lock is released before
`onTimerInsertedAtfront()` is called. -/
def addTimer (manager : Nat) (front : Option InsertedAtFront) : LockScript :=
  unlocked .exclusive (.timerManager manager) [] (match front with
    | some front => front.script
    | none => [])

/-- `listExpiredCb` returns after its first look, or goes on under the write lock, where it copies callbacks and drops
those of timers that are not recurring. -/
def listExpiredCb (manager : Nat) (found : Option (CallersCode 3)) : LockScript :=
  readLocked (.timerManager manager) ++ match found with
    | some code => locked (.timerManager manager) code.script
    | none => []

end TimerManager

/-- The calls that take locks, and what the caller does between them. -/
inductive Call
  | caller (code : CallersCode 0)
  | log (event : LoggerLog)
  | setFormatter (logger : Option Nat) (appenders : List Nat)
  | addAppender (logger : Option Nat) (appender : Nat) (inherits : Bool)
  /-- `Logger::getFormatter`. -/
  | logger (logger : Option Nat)
  | clearAppenders (logger : Option Nat) (destroyed : List AppenderEnd)
  | loggerToYamlString (logger : Option Nat) (appenders : List AppenderYaml)
  /-- `LogAppender::setFormatter`, `getFormatter` and `toYamlString`. -/
  | appender (appender : Nat)
  | reopen (appender writes : Nat)
  | getLogger
  | toYamlString (loggers : List (Option Nat × List AppenderYaml))
  | lookup (path : Config.LookupPath)
  /-- `Lookup` without a default value, and `LookupBase`. -/
  | lookupBase
  | visit (cb : List (CallersCode 1))
  | loadFromYaml (invalid : List LoggerLog)
    (nodes : List (Option (Nat × CallersCode 0 × Option ConfigVar.SetPath × LoggerLog)))
  | setValue (var : Nat) (path : ConfigVar.SetPath)
  | fromString (var : Nat) (converts : CallersCode 0) (set : Option ConfigVar.SetPath) (caught : LoggerLog)
  | configToString (var : Nat) (converts : CallersCode 2) (caught : Option LoggerLog)
  /-- `ConfigVar::getValue` and `getListener`, which copy the value and the listener. -/
  | getValue (var : Nat) (copies : CallersCode 2)
  /-- `ConfigVar::addListener`, which copies a listener, and `delListener`, which destroys one. -/
  | listeners (var : Nat) (code : CallersCode 2)
  | fdGet (creates : Bool)
  | fdDel
  | schedule (scheduler : Nat) (copies : CallersCode 5) (tickle : Option Tickle)
  /-- The selection loop of `Scheduler::run`, which copies a callback and drops the queue's, `Scheduler::stopping` and
  the swap in `Scheduler::stop`. -/
  | scheduler (scheduler : Nat) (copies : CallersCode 5)
  | start (scheduler : Nat) (failure : Option (Option LoggerLog))
  | tickle (tickle : Tickle)
  | addEvent (manager fd : Nat) (resizes : Bool) (steps : List IOManager.UnderFdContext)
  /-- `IOManager::delEvent`, `cancelEvent` and `cancelAll`. -/
  | remove (manager fd : Nat) (steps : Option (List IOManager.UnderFdContext))
  /-- One report in `IOManager::idle`. -/
  | report (manager fd : Nat) (steps : List IOManager.UnderFdContext)
  | addTimer (manager : Nat) (front : Option TimerManager.InsertedAtFront)
  /-- `Timer::cancel`, which destroys the callback, `Timer::refresh` and the rest of `Timer::reset`. -/
  | timer (manager : Nat) (code : CallersCode 3)
  /-- `TimerManager::getNextTimer` and `hasTimer`. -/
  | getNextTimer (manager : Nat)
  | listExpiredCb (manager : Nat) (found : Option (CallersCode 3))

def Call.script : Call → LockScript
  | .caller code => code.script
  | .log event => event.script
  | .setFormatter of appenders => Logger.setFormatter of appenders
  | .addAppender of added inherits => Logger.addAppender of added inherits
  | .logger of => locked (loggerLock of)
  | .clearAppenders of destroyed => Logger.clearAppenders of destroyed
  | .loggerToYamlString of appenders => Logger.toYamlString of appenders
  | .appender a => locked (.appender a)
  | .reopen a writes => Locks.reopen a writes
  | .getLogger => locked .loggerManager
  | .toYamlString loggers => LoggerManager.toYamlString loggers
  | .lookup path => Config.lookup path
  | .lookupBase => readLocked .config
  | .visit cb => readLocked .config (cb.flatMap CallersCode.script)
  | .loadFromYaml invalid nodes => Config.loadFromYaml invalid nodes
  | .setValue var path => ConfigVar.setValue var path
  | .fromString var converts set caught => ConfigVar.fromString var converts set caught
  | .configToString var converts caught => ConfigVar.toString var converts caught
  | .getValue var copies => readLocked (.configVar var) copies.script
  | .listeners var code => locked (.configVar var) code.script
  | .fdGet creates => FdManager.get creates
  | .fdDel => locked .fdManager
  | .schedule target copies how => Scheduler.schedule target copies how
  | .scheduler of copies => locked (.scheduler of) copies.script
  | .start of failure => Scheduler.start of failure
  | .tickle how => how.script
  | .addEvent manager fd resizes steps => IOManager.addEvent manager fd resizes steps
  | .remove manager fd steps => IOManager.remove manager fd steps
  | .report manager fd steps => IOManager.fdContext manager fd steps
  | .addTimer manager front => TimerManager.addTimer manager front
  | .timer manager code => locked (.timerManager manager) code.script
  | .getNextTimer manager => readLocked (.timerManager manager)
  | .listExpiredCb manager found => TimerManager.listExpiredCb manager found

section Fits
variable {k : Nat} {inner after : LockScript} {mode : Mode}

theorem locked_fits (mutex : LockName) (le : k ≤ mutex.rank) (fits : Fits LockName.rank (mutex.rank + 1) inner) :
    Fits LockName.rank k (locked mutex inner) :=
  ScopedLockImpl.scope_fits le ⟨fits, trivial⟩

theorem readLocked_fits (mutex : LockName) (le : k ≤ mutex.rank) (fits : Fits LockName.rank (mutex.rank + 1) inner) :
    Fits LockName.rank k (readLocked mutex inner) :=
  ScopedLockImpl.scope_fits le ⟨fits, trivial⟩

theorem unlocked_fits (mutex : LockName) (le : k ≤ mutex.rank) (fits : Fits LockName.rank (mutex.rank + 1) inner)
    (outside : Fits LockName.rank k after) : Fits LockName.rank k (unlocked mode mutex inner after) :=
  ScopedLockImpl.scope_fits le ⟨fits, outside, trivial⟩

theorem FdManager.get_fits (le : k ≤ 8) (creates : Bool) : Fits LockName.rank k (get creates) := by
  cases creates with
  | false => exact readLocked_fits .fdManager le .nil
  | true => exact unlocked_fits .fdManager le .nil (locked_fits .fdManager le .nil)

theorem hookedWrites_fits (le : k ≤ 8) (writes : Nat) : Fits LockName.rank k (hookedWrites writes) := by
  rw [hookedWrites, ← List.flatMap_id]
  refine .flatMap fun script member => ?_
  rw [List.eq_of_mem_replicate member]
  exact FdManager.get_fits le false

theorem appender_fits (le : k ≤ 7) (appender : Nat) : Fits LockName.rank k (locked (.appender appender)) :=
  locked_fits _ le .nil

theorem reopen_fits (le : k ≤ 7) (appender writes : Nat) : Fits LockName.rank k (reopen appender writes) :=
  locked_fits (.appender appender) le (hookedWrites_fits le_rfl writes)

theorem AppenderLog.script_fits (le : k ≤ 7) (line : AppenderLog) : Fits LockName.rank k line.script := by
  cases line with
  | caller code => exact code.fits.mono le
  | stdout appender => exact appender_fits le appender
  | file appender reopened writes =>
    cases reopened with
    | none => exact reopen_fits le appender writes
    | some before => exact (reopen_fits le appender before).append (reopen_fits le appender writes)

/-- Whoever has no lock of the log may log. -/
theorem LoggerLog.script_fits (le : k ≤ 5) (event : LoggerLog) : Fits LockName.rank k event.script := by
  have lines : ∀ (j : Nat) (lines : List AppenderLog), j ≤ 7 →
      Fits LockName.rank j (lines.flatMap AppenderLog.script) :=
    fun j lines le => .flatMap fun line _ => line.script_fits le
  cases event with
  | below => exact .nil
  | root appenders =>
    have inside : k ≤ LockName.rootLogger.rank := le.trans (by decide)
    exact locked_fits .rootLogger inside (lines _ appenders le_rfl)
  | own logger appenders =>
    have last : (LockName.logger logger).rank + 1 ≤ 7 := by simp only [LockName.rank]; omega
    exact locked_fits (.logger logger) le (lines _ appenders last)
  | viaRoot logger appenders =>
    cases appenders with
    | none => exact locked_fits (.logger logger) le .nil
    | some appenders =>
      exact locked_fits (.logger logger) le (locked_fits .rootLogger le_rfl (lines _ appenders le_rfl))

theorem le_loggerLock (logger : Option Nat) : 5 ≤ (loggerLock logger).rank ∧ (loggerLock logger).rank ≤ 6 := by
  cases logger <;> simp only [loggerLock, LockName.rank] <;> omega

/-- A function that goes through appenders under the lock of a logger. -/
theorem loggerLocked_fits (le : k ≤ 5) (logger : Option Nat) (each : ∀ j ≤ 7, Fits LockName.rank j inner) :
    Fits LockName.rank k (locked (loggerLock logger) inner) := by
  obtain ⟨low, high⟩ := le_loggerLock logger
  exact locked_fits _ (le.trans low) (each _ (by omega))

theorem appenders_fits (appenders : List Nat) (j : Nat) (le : j ≤ 7) :
    Fits LockName.rank j (appenders.flatMap fun appender => locked (.appender appender)) :=
  .flatMap fun appender _ => appender_fits le appender

theorem AppenderYaml.script_fits (le : k ≤ 7) (yaml : AppenderYaml) : Fits LockName.rank k yaml.script := by
  cases yaml with
  | own appender => exact appender_fits le appender
  | caller code => exact code.fits.mono le

theorem AppenderEnd.script_fits (le : k ≤ 7) (destroyed : AppenderEnd) : Fits LockName.rank k destroyed.script := by
  cases destroyed with
  | stdout => exact .nil
  | file writes => exact hookedWrites_fits (by omega) writes
  | caller code => exact code.fits.mono le

theorem Logger.toYamlString_fits (le : k ≤ 5) (logger : Option Nat) (appenders : List AppenderYaml) :
    Fits LockName.rank k (toYamlString logger appenders) :=
  loggerLocked_fits le logger fun _ last => .flatMap fun yaml _ => yaml.script_fits last

theorem Logger.clearAppenders_fits (le : k ≤ 5) (logger : Option Nat) (destroyed : List AppenderEnd) :
    Fits LockName.rank k (clearAppenders logger destroyed) :=
  loggerLocked_fits le logger fun _ last => .flatMap fun ended _ => ended.script_fits last

theorem Logger.addAppender_fits (le : k ≤ 5) (logger : Option Nat) (appender : Nat) (inherits : Bool) :
    Fits LockName.rank k (addAppender logger appender inherits) := by
  refine loggerLocked_fits le logger fun j last => (appender_fits last appender).append ?_
  cases inherits with
  | false => exact .nil
  | true => exact appender_fits last appender

theorem LogApplied.script_fits (le : k ≤ 2) (d : LogApplied) : Fits LockName.rank k d.script := by
  have early : k ≤ 5 := by omega
  have late : k ≤ 7 := by omega
  have found : Fits LockName.rank k (locked .loggerManager) := locked_fits .loggerManager le .nil
  have cleared : Fits LockName.rank k (Logger.clearAppenders d.logger d.cleared) := Logger.clearAppenders_fits early _ _
  refine ((found.append ?_).append cleared).append ?_
  · cases d.formatter with
    | none => exact .nil
    | some appenders => exact loggerLocked_fits early _ (appenders_fits appenders)
  · refine .flatMap fun (appender, file, formatter, inherits) _ =>
      .append (.append ?_ ?_) (Logger.addAppender_fits early _ _ _)
    · cases file with
      | false => exact .nil
      | true => exact reopen_fits late appender 0
    · cases formatter with
      | false => exact .nil
      | true => exact appender_fits late appender

/-- The two listeners of the library may be called under the lock of a variable. -/
theorem Listener.script_fits (listener : Listener) : Fits LockName.rank 2 listener.script := by
  cases listener with
  | logs log applied deleted =>
    have logged : Fits LockName.rank 2 log.script := log.script_fits (by omega)
    refine (logged.append (.flatMap fun d _ => d.script_fits le_rfl)).append (.flatMap fun (logger, destroyed) _ => ?_)
    have found : Fits LockName.rank 2 (locked .loggerManager) := locked_fits .loggerManager le_rfl .nil
    exact found.append (Logger.clearAppenders_fits (by omega) logger destroyed)
  | tcpConnectTimeout log => exact log.script_fits (by omega)
  | caller code => exact code.fits

theorem ConfigVar.setValue_fits (le : k ≤ 1) (var : Nat) (path : SetPath) :
    Fits LockName.rank k (setValue var path) := by
  have called : ∀ (compares : CallersCode 2) (listeners : List Listener),
      Fits LockName.rank k (readLocked (.configVar var) (compares.script ++ listeners.flatMap Listener.script)) :=
    fun compares listeners =>
      readLocked_fits (.configVar var) le (compares.fits.append (.flatMap fun listener _ => listener.script_fits))
  cases path with
  | same compares => exact readLocked_fits (.configVar var) le compares.fits
  | stored compares listeners assigns =>
    exact (called compares listeners).append (locked_fits (.configVar var) le assigns.fits)
  | thrown compares listeners => exact called compares listeners

theorem ConfigVar.fromString_fits (var : Nat) (converts : CallersCode 0) (set : Option SetPath) (caught : LoggerLog) :
    Fits LockName.rank 0 (fromString var converts set caught) := by
  refine .append (converts.fits.append ?_) (caught.script_fits (by omega))
  cases set with
  | none => exact .nil
  | some path => exact setValue_fits (by omega) var path

theorem ConfigVar.toString_fits (le : k ≤ 1) (var : Nat) (converts : CallersCode 2) (caught : Option LoggerLog) :
    Fits LockName.rank k (ConfigVar.toString var converts caught) := by
  refine .append (readLocked_fits (.configVar var) le converts.fits) ?_
  cases caught with
  | none => exact .nil
  | some event => exact event.script_fits (by omega)

theorem Tickle.script_fits (le : k ≤ 4) (tickle : Tickle) : Fits LockName.rank k tickle.script := by
  cases tickle with
  | caller code => exact code.fits.mono le
  | log event => exact event.script_fits (by omega)
  | nobody => exact .nil
  | write hooked =>
    cases hooked with
    | false => exact .nil
    | true => exact FdManager.get_fits (by omega) false

theorem Scheduler.schedule_fits (le : k ≤ 4) (scheduler : Nat) (copies : CallersCode 5) (tickle : Option Tickle) :
    Fits LockName.rank k (schedule scheduler copies tickle) := by
  refine (locked_fits (.scheduler scheduler) le copies.fits).append ?_
  cases tickle with
  | none => exact .nil
  | some tickle => exact tickle.script_fits (by omega)

theorem IOManager.fdContext_fits (le : k ≤ 3) (manager fd : Nat) (steps : List UnderFdContext) :
    Fits LockName.rank k (fdContext manager fd steps) := by
  refine locked_fits (.fdContext manager fd) le (.flatMap fun step _ => ?_)
  cases step with
  | log event => exact event.script_fits (by simp only [LockName.rank]; omega)
  | resetContext code => exact code.fits
  | triggerEvent scheduler copies tickle => exact Scheduler.schedule_fits le_rfl scheduler copies tickle

theorem IOManager.addEvent_fits (le : k ≤ 2) (manager fd : Nat) (resizes : Bool) (steps : List UnderFdContext) :
    Fits LockName.rank k (addEvent manager fd resizes steps) := by
  refine unlocked_fits (.ioManager manager) le .nil (.append ?_ (fdContext_fits (by omega) manager fd steps))
  cases resizes with
  | false => exact .nil
  | true => exact locked_fits (.ioManager manager) le .nil

theorem IOManager.remove_fits (le : k ≤ 2) (manager fd : Nat) (steps : Option (List UnderFdContext)) :
    Fits LockName.rank k (remove manager fd steps) := by
  cases steps with
  | none => exact readLocked_fits (.ioManager manager) le .nil
  | some steps => exact unlocked_fits (.ioManager manager) le .nil (fdContext_fits (by omega) manager fd steps)

theorem TimerManager.addTimer_fits (manager : Nat) (front : Option InsertedAtFront) :
    Fits LockName.rank 0 (addTimer manager front) := by
  refine unlocked_fits (.timerManager manager) (Nat.zero_le 2) .nil ?_
  rcases front with _ | how | code
  · exact .nil
  · exact how.script_fits (by omega)
  · exact code.fits

theorem Scheduler.start_fits (le : k ≤ 4) (scheduler : Nat) (failure : Option (Option LoggerLog)) :
    Fits LockName.rank k (start scheduler failure) := by
  rcases failure with _ | _ | log
  · exact locked_fits (.scheduler scheduler) le .nil
  · exact unlocked_fits (.scheduler scheduler) le .nil .nil
  · exact locked_fits (.scheduler scheduler) le (log.script_fits (by simp only [LockName.rank]; omega))

theorem Config.lookup_fits (path : LookupPath) : Fits LockName.rank 0 (lookup path) := by
  have logged : ∀ log : LoggerLog, Fits LockName.rank 1 log.script := fun log => log.script_fits (by omega)
  cases path with
  | «exists» log => exact locked_fits .config le_rfl (logged log)
  | invalid log => exact locked_fits .config le_rfl (logged log)
  | mismatch var converts caught log =>
    exact locked_fits .config le_rfl ((ConfigVar.toString_fits le_rfl var converts caught).append (logged log))
  | added copies => exact locked_fits .config le_rfl copies.fits

theorem Config.loadFromYaml_fits (invalid : List LoggerLog)
    (nodes : List (Option (Nat × CallersCode 0 × Option ConfigVar.SetPath × LoggerLog))) :
    Fits LockName.rank 0 (loadFromYaml invalid nodes) := by
  refine .append (.flatMap fun log _ => log.script_fits (by omega)) (.flatMap fun node _ => ?_)
  refine .append (readLocked_fits .config le_rfl .nil) ?_
  rcases node with _ | ⟨var, converts, set, caught⟩
  · exact .nil
  · exact ConfigVar.fromString_fits var converts set caught

/-- Each call takes its locks in the order of the ranks, and releases them. -/
theorem Call.script_fits (call : Call) : Fits LockName.rank 0 call.script := by
  have early : ∀ j, 0 ≤ j := Nat.zero_le
  cases call with
  | caller code => exact code.fits
  | log event => exact event.script_fits (early 5)
  | setFormatter logger appenders => exact loggerLocked_fits (early 5) logger (appenders_fits appenders)
  | loggerToYamlString logger appenders => exact Logger.toYamlString_fits (early 5) logger appenders
  | addAppender logger appender inherits => exact Logger.addAppender_fits (early 5) logger appender inherits
  | logger logger => exact loggerLocked_fits (early 5) logger fun _ _ => .nil
  | clearAppenders logger destroyed => exact Logger.clearAppenders_fits (early 5) logger destroyed
  | appender appender => exact appender_fits (early 7) appender
  | reopen appender writes => exact reopen_fits (early 7) appender writes
  | getLogger => exact locked_fits .loggerManager (early 2) .nil
  | toYamlString loggers =>
    have inside : LockName.loggerManager.rank + 1 ≤ 5 := by simp only [LockName.rank]; omega
    exact locked_fits .loggerManager (early 2) (.flatMap fun l _ => Logger.toYamlString_fits inside l.1 l.2)
  | lookup path => exact Config.lookup_fits path
  | lookupBase => exact readLocked_fits .config le_rfl .nil
  | visit cb => exact readLocked_fits .config le_rfl (.flatMap fun code _ => code.fits)
  | loadFromYaml invalid nodes => exact Config.loadFromYaml_fits invalid nodes
  | setValue var path => exact ConfigVar.setValue_fits (early 1) var path
  | fromString var converts set caught => exact ConfigVar.fromString_fits var converts set caught
  | configToString var converts caught => exact ConfigVar.toString_fits (early 1) var converts caught
  | getValue var copies => exact readLocked_fits (.configVar var) (early 1) copies.fits
  | listeners var code => exact locked_fits (.configVar var) (early 1) code.fits
  | fdGet creates => exact FdManager.get_fits (early 8) creates
  | fdDel => exact locked_fits .fdManager (early 8) .nil
  | schedule target copies how => exact Scheduler.schedule_fits (early 4) target copies how
  | scheduler scheduler copies => exact locked_fits (.scheduler scheduler) (early 4) copies.fits
  | start scheduler failure => exact Scheduler.start_fits (early 4) scheduler failure
  | tickle how => exact how.script_fits (early 4)
  | addEvent manager fd resizes steps => exact IOManager.addEvent_fits (early 2) manager fd resizes steps
  | remove manager fd steps => exact IOManager.remove_fits (early 2) manager fd steps
  | report manager fd steps => exact IOManager.fdContext_fits (early 3) manager fd steps
  | addTimer manager front => exact TimerManager.addTimer_fits manager front
  | timer manager code => exact locked_fits (.timerManager manager) (early 2) code.fits
  | getNextTimer manager => exact readLocked_fits (.timerManager manager) (early 2) .nil
  | listExpiredCb manager found =>
    refine .append (readLocked_fits (.timerManager manager) (early 2) .nil) ?_
    cases found with
    | none => exact .nil
    | some code => exact locked_fits (.timerManager manager) (early 2) code.fits

end Fits

/-- What a thread does to locks in a sequence of calls. -/
def script (calls : List Call) : LockScript := calls.flatMap Call.script

theorem script_ordered (calls : List Call) : Ordered LockName.rank [] (script calls) :=
  Fits.ordered (.flatMap fun call _ => call.script_fits)

/-- However many threads call the functions of the library, and however they interleave, the locks exclude
each other, and no thread waits forever: from everywhere on, all of them can come to their end. -/
theorem run_excludes_completes {n : Nat} {calls : Fin n → List Call} {ts : List (Fin n)} {s : System LockName (Fin n)}
    (run : Run System.Step (.start fun t => script (calls t)) ts s) :
    (∀ t u mutex mode, (mutex, .exclusive) ∈ s.holds t → (mutex, mode) ∈ s.holds u → u = t ∧ mode = .exclusive) ∧
      ((∃ t, s.todo t ≠ []) → ∃ t, (s.act t).isSome) ∧
      ∃ more last, Run System.Step s more last ∧ (∀ t, last.todo t = []) ∧ ∀ mutex, last.locks mutex = .free := by
  have sound : Sound LockName.rank s := Sound.run (.start fun t => script_ordered (calls t)) run
  refine ⟨fun t u mutex mode owner held => sound.exclusive owner held, fun unfinished => ?_, sound.completes⟩
  obtain ⟨t, next, step⟩ := sound.progress unfinished
  exact ⟨t, Option.isSome_iff_exists.mpr ⟨next, step⟩⟩

/-- The destructor of a callback that locks a mutex of the caller's, which comes after the `FdContext`s, and logs. -/
def destructorLogs : CallersCode 4 where
  script := locked (.caller 4 0) (LoggerLog.own 1 [.stdout 2]).script
  fits := locked_fits (.caller 4 0) le_rfl (LoggerLog.script_fits le_rfl _)

/-- One thread deletes an event whose callback goes with it, and the other one logs to the same logger. -/
def deletesAndLogs : Fin 2 → List Call
  | 0 => [.remove 0 5 (some [.resetContext destructorLogs])]
  | 1 => [.log (.own 1 [.file 3 (some 1) 0])]

/-- The second thread waits for the logger, which the first one holds; and yet both end. -/
theorem run_excludes_completes_deletesAndLogs : ∃ s : System LockName (Fin 2),
    Run System.Step (.start fun t => script (deletesAndLogs t)) [0, 0, 0, 0, 0] s ∧ s.act 1 = none ∧
      (LockName.logger 1, Mode.exclusive) ∈ s.holds 0 ∧
      ∃ more last, Run System.Step s more last ∧ (∀ t, last.todo t = []) ∧ ∀ mutex, last.locks mutex = .free := by
  have done : ∃ s : System LockName (Fin 2),
      acts System.act (.start fun t => script (deletesAndLogs t)) [0, 0, 0, 0, 0] = some s ∧ s.act 1 = none ∧
      s.holds 0 = [(.logger 1, .exclusive), (.caller 4 0, .exclusive), (.fdContext 0 5, .exclusive)] :=
    ⟨_, rfl, rfl, rfl⟩
  obtain ⟨s, steps, waits, holds⟩ := done
  have run := run_of_acts System.act steps
  refine ⟨s, run, waits, ?_, (run_excludes_completes run).2.2⟩
  rw [holds]
  exact List.mem_cons_self

end Sylar.Locks
