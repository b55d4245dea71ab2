import Sylar.Lib.OrderedMap
import Sylar.LogIniter

/-! `LoggerManager`, the `m_root` that it gives to its loggers, and the appenders at which an event arrives. -/

namespace Sylar
open Machine

/-- A shared pointer to a logger. -/
abbrev LoggerPtr := Nat

structure RootedLogger extends Logger where
  m_root : Option LoggerPtr := none

structure LoggerManager where
  m_loggers : OrderedMap String LoggerPtr
  m_root : LoggerPtr

/-- The manager, the loggers and the appenders behind their pointers, and how many of them and of the
formatters have been made. -/
structure LogHeap where
  manager : LoggerManager
  logger : LoggerPtr → RootedLogger
  loggersMade : LoggerPtr
  heap : AppenderPtr → LogAppender
  type : AppenderPtr → AppenderType
  made : AppenderPtr
  addr : Nat

/-- `log` of an appender; without a formatter it has no result. -/
def LogAppender.log (strftime : String → Nat → String) (a : LogAppender) (level : LogLevel) (event : LogEvent) :
    Option String :=
  if a.m_level.toNat ≤ level.toNat then a.m_formatter.map fun f => f.formatter.format strftime level event
  else some ""

namespace LogHeap

/-- The constructor of `LoggerManager`. -/
def new : LogHeap :=
  let added := (Logger.new "root" 0).addAppender (fun _ => {}) 0
  { manager := ⟨OrderedMap.empty.set "root" 0, 0⟩
    logger := fun _ => { toLogger := added.1 }
    loggersMade := 1
    heap := added.2
    type := fun _ => .StdoutLogAppender
    made := 1
    addr := 1 }

/-- A logger is made and gets the `m_root`. -/
def make (s : LogHeap) (name : String) (m_root : Option LoggerPtr) : LogHeap :=
  { s with
    logger := Function.update s.logger s.loggersMade { toLogger := Logger.new name s.addr, m_root }
    loggersMade := s.loggersMade + 1
    addr := s.addr + 1 }

def getLogger (s : LogHeap) (name : String) : LoggerPtr × LogHeap :=
  match s.manager.m_loggers.find name with
  | some logger => (logger, s)
  | none =>
    let t := s.make name (some s.manager.m_root)
    (s.loggersMade, { t with manager.m_loggers := s.manager.m_loggers.set name s.loggersMade })

/-- A member function of `Logger`, through a pointer. -/
def call (s : LogHeap) (p : LoggerPtr)
    (f : Logger → (AppenderPtr → LogAppender) → Logger × (AppenderPtr → LogAppender)) : LogHeap :=
  let r := f (s.logger p).toLogger s.heap
  { s with logger := Function.update s.logger p { s.logger p with toLogger := r.1 }, heap := r.2 }

/-- `Logger::log`, where no more than `fuel` loggers are asked. Each line goes to an appender. -/
def log (s : LogHeap) (strftime : String → Nat → String) : Nat → LoggerPtr → LogLevel → LogEvent →
    Option (List (AppenderPtr × String))
  | 0, _, _, _ => none
  | fuel + 1, p, level, event =>
    if (s.logger p).m_level.toNat ≤ level.toNat then
      if (s.logger p).m_appenders ≠ [] then
        (s.logger p).m_appenders.mapM fun i => ((s.heap i).log strftime level event).map fun text => (i, text)
      else match (s.logger p).m_root with
        | some root => log s strftime fuel root level event
        | none => some []
    else some []

/-- What is done to the loggers. A logger that is made with `new` is not kept by the manager. -/
inductive Act
  | getLogger (name : String) (p : LoggerPtr)
  | new (name : String)
  | setLevel (p : LoggerPtr) (val : LogLevel)
  | setFormatter (p : LoggerPtr) (val : Option FormatterPtr)
  | setPattern (p : LoggerPtr) (val : String)
  | addAppender (p : LoggerPtr) (appender : AppenderPtr)
  | delAppender (p : LoggerPtr) (appender : AppenderPtr)
  | clearAppenders (p : LoggerPtr)
  | newAppender (type : AppenderType)
  | appenderSetFormatter (a : AppenderPtr) (val : Option FormatterPtr)
  | appenderSetLevel (a : AppenderPtr) (val : LogLevel)

def act (s : LogHeap) : Act → LogHeap
  | .getLogger name _ => (s.getLogger name).2
  | .new name => s.make name none
  | .setLevel p val => s.call p fun l heap => (l.setLevel val, heap)
  | .setFormatter p val => s.call p fun l heap => l.setFormatter heap val
  | .setPattern p val => { s.call p fun l heap => l.setPattern heap s.addr val with addr := s.addr + 1 }
  | .addAppender p a => s.call p fun l heap => l.addAppender heap a
  | .delAppender p a => s.call p fun l heap => (l.delAppender a, heap)
  | .clearAppenders p => s.call p fun l heap => (l.clearAppenders, heap)
  | .newAppender type =>
    { s with heap := Function.update s.heap s.made {}, type := Function.update s.type s.made type, made := s.made + 1 }
  | .appenderSetFormatter a val => { s with heap := Function.update s.heap a ((s.heap a).setFormatter val) }
  | .appenderSetLevel a val => { s with heap := Function.update s.heap a ((s.heap a).setLevel val) }

/-- The pointer is the one that `getLogger` returns; what is called is called through pointers to what has been
made. -/
def Allowed (s : LogHeap) : Act → Prop
  | .getLogger name p => (s.getLogger name).1 = p
  | .new _ | .newAppender _ => True
  | .setLevel p _ | .setFormatter p _ | .setPattern p _ | .clearAppenders p => p < s.loggersMade
  | .addAppender p a | .delAppender p a => p < s.loggersMade ∧ a < s.made
  | .appenderSetFormatter a _ | .appenderSetLevel a _ => a < s.made

def Step (s : LogHeap) (a : Act) (t : LogHeap) : Prop := s.Allowed a ∧ s.act a = t

/-- The loggers that the manager has, and those that it has not, after what has been done. -/
structure Kept (ls : List Act) (s : LogHeap) : Prop where
  root : s.manager.m_loggers.find "root" = some s.manager.m_root
  below : ∀ name p, s.manager.m_loggers.find name = some p → p < s.loggersMade
  name : ∀ name p, s.manager.m_loggers.find name = some p → (s.logger p).m_name = name
  m_root : ∀ name p, s.manager.m_loggers.find name = some p →
    (s.logger p).m_root = if name = "root" then none else some s.manager.m_root
  others : ∀ p, (∀ name, s.manager.m_loggers.find name ≠ some p) → (s.logger p).m_root = none
  got : ∀ name p, .getLogger name p ∈ ls → s.manager.m_loggers.find name = some p
  asked : ∀ name p, s.manager.m_loggers.find name = some p → name = "root" ∨ .getLogger name p ∈ ls

theorem kept_new : Kept [] new := by
  have only : ∀ name p, new.manager.m_loggers.find name = some p → name = "root" ∧ p = 0 := by
    intro name p found
    have entry : (name, p) ∈ [(("root", 0) : String × LoggerPtr)] := OrderedMap.find_eq_some_iff.mp found
    exact Prod.mk.inj (List.mem_singleton.mp entry)
  refine ⟨rfl, fun name p found => ?_, fun name p found => ?_, fun name p found => ?_, fun _ _ => rfl, nofun,
    fun name p found => .inl (only name p found).1⟩
  · rw [(only name p found).2]
    exact Nat.one_pos
  · rw [(only name p found).1]
    rfl
  · rw [if_pos (only name p found).1]
    rfl

section Run
variable {ls : List Act} {s t : LogHeap} {a : Act}

/-- The manager and the number of loggers are as before, and so are the name and the `m_root` of each. -/
structure Same (s t : LogHeap) : Prop where
  manager : t.manager = s.manager
  made : t.loggersMade = s.loggersMade
  m_name : ∀ p, (t.logger p).m_name = (s.logger p).m_name
  m_root : ∀ p, (t.logger p).m_root = (s.logger p).m_root

theorem same_call (p : LoggerPtr) {f : Logger → (AppenderPtr → LogAppender) → Logger × (AppenderPtr → LogAppender)}
    (kept : ∀ l heap, (f l heap).1.m_name = l.m_name) : Same s (s.call p f) := by
  refine ⟨rfl, rfl, fun q => ?_, fun q => ?_⟩
  · by_cases here : q = p
    · rw [here]
      simp only [call, Function.update_self, kept]
    · simp only [call, Function.update_of_ne here]
  · by_cases here : q = p
    · rw [here]
      simp only [call, Function.update_self]
    · simp only [call, Function.update_of_ne here]

theorem setPattern_m_name (l : Logger) (heap : AppenderPtr → LogAppender) (addr : Nat) (val : String) :
    (l.setPattern heap addr val).1.m_name = l.m_name := by
  simp only [Logger.setPattern]
  split <;> rfl

theorem same_act (s : LogHeap) (a : Act) :
    Same s (s.act a) ∨ (∃ name p, a = .getLogger name p) ∨ ∃ name, a = .new name := by
  cases a with
  | getLogger name p => exact .inr (.inl ⟨name, p, rfl⟩)
  | new name => exact .inr (.inr ⟨name, rfl⟩)
  | setLevel p val => exact .inl (@same_call s p (fun l heap => (l.setLevel val, heap)) fun _ _ => rfl)
  | setFormatter p val => exact .inl (@same_call s p (fun l heap => l.setFormatter heap val) fun _ _ => rfl)
  | setPattern p val =>
    have same : Same s (s.call p fun l heap => l.setPattern heap s.addr val) :=
      same_call p fun l heap => setPattern_m_name l heap s.addr val
    exact .inl ⟨same.manager, same.made, same.m_name, same.m_root⟩
  | addAppender p a => exact .inl (@same_call s p (fun l heap => l.addAppender heap a) fun _ _ => rfl)
  | delAppender p a => exact .inl (@same_call s p (fun l heap => (l.delAppender a, heap)) fun _ _ => rfl)
  | clearAppenders p => exact .inl (@same_call s p (fun l heap => (l.clearAppenders, heap)) fun _ _ => rfl)
  | newAppender type => exact .inl ⟨rfl, rfl, fun _ => rfl, fun _ => rfl⟩
  | appenderSetFormatter a val => exact .inl ⟨rfl, rfl, fun _ => rfl, fun _ => rfl⟩
  | appenderSetLevel a val => exact .inl ⟨rfl, rfl, fun _ => rfl, fun _ => rfl⟩

theorem mem_append_of_ne {name : String} {p : LoggerPtr} (asks : a ≠ .getLogger name p) :
    .getLogger name p ∈ ls ++ [a] ↔ .getLogger name p ∈ ls := by
  rw [List.mem_append, List.mem_singleton]
  exact or_iff_left asks.symm

/-- What asks the manager for no logger leaves the loggers that it keeps. -/
theorem Kept.same (kept : Kept ls s) (same : Same s t) (asks : ∀ name p, a ≠ .getLogger name p) : Kept
    (ls ++ [a]) t where
  root := by
    rw [same.manager]
    exact kept.root
  below name p found := by
    rw [same.manager] at found
    rw [same.made]
    exact kept.below name p found
  name name p found := by
    rw [same.manager] at found
    rw [same.m_name]
    exact kept.name name p found
  m_root name p found := by
    rw [same.manager] at found ⊢
    rw [same.m_root]
    exact kept.m_root name p found
  others p free := by
    rw [same.manager] at free
    rw [same.m_root]
    exact kept.others p free
  got name p asked := by
    rw [same.manager]
    exact kept.got name p ((mem_append_of_ne (asks name p)).mp asked)
  asked name p found := by
    rw [same.manager] at found
    exact (kept.asked name p found).imp_right (mem_append_of_ne (asks name p)).mpr

/-- A logger that is made is not one of those of the manager. -/
theorem Kept.make (kept : Kept ls s) (name : String) : Kept (ls ++ [.new name]) (s.make name none) := by
  have old : ∀ n p, s.manager.m_loggers.find n = some p → (s.make name none).logger p = s.logger p := by
    intro n p found
    exact Function.update_of_ne (kept.below n p found).ne ..
  have asks : ∀ n p, Act.new name ≠ .getLogger n p := fun _ _ => nofun
  refine ⟨kept.root, fun n p found => ?_, fun n p found => ?_, fun n p found => ?_, fun p free => ?_,
    fun n p asked => ?_,
    fun n p found => (kept.asked n p found).imp_right (mem_append_of_ne (asks n p)).mpr⟩
  · exact (kept.below n p found).trans (Nat.lt_succ_self _)
  · rw [old n p found]
    exact kept.name n p found
  · rw [old n p found]
    exact kept.m_root n p found
  · by_cases here : p = s.loggersMade
    · rw [here, LogHeap.make]
      simp only [Function.update_self]
    · have unchanged : (s.make name none).logger p = s.logger p := Function.update_of_ne here ..
      rw [unchanged]
      exact kept.others p free
  · exact kept.got n p ((mem_append_of_ne (asks n p)).mp asked)

theorem Kept.getLogger (kept : Kept ls s) (name : String) :
    Kept (ls ++ [.getLogger name (s.getLogger name).1]) (s.getLogger name).2 := by
  have last : ∀ n p q, Act.getLogger n p ∈ ls ++ [.getLogger name q] ↔ .getLogger n p ∈ ls ∨ n = name ∧ p = q := by
    intro n p q
    rw [List.mem_append, List.mem_singleton, Act.getLogger.injEq]
  rw [LogHeap.getLogger]
  split
  · rename_i p there
    refine ⟨kept.root, kept.below, kept.name, kept.m_root, kept.others, fun n q asked => ?_, fun n q found => ?_⟩
    · rcases (last n q p).mp asked with before | ⟨rfl, rfl⟩
      · exact kept.got n q before
      · exact there
    · exact (kept.asked n q found).imp_right fun before => (last n q p).mpr (.inl before)
  · rename_i absent
    have apart : name ≠ "root" := by
      rintro rfl
      cases kept.root.symm.trans absent
    have old : ∀ p, p ≠ s.loggersMade → (s.make name (some s.manager.m_root)).logger p = s.logger p :=
      fun p other => Function.update_of_ne other ..
    have new : (s.make name (some s.manager.m_root)).logger s.loggersMade =
        { toLogger := Logger.new name s.addr, m_root := some s.manager.m_root } := Function.update_self ..
    have split : ∀ n p, (s.manager.m_loggers.set name s.loggersMade).find n = some p →
        n = name ∧ p = s.loggersMade ∨ n ≠ name ∧ s.manager.m_loggers.find n = some p := by
      intro n p found
      by_cases here : n = name
      · subst here
        rw [OrderedMap.find_set_self] at found
        exact .inl ⟨rfl, (Option.some.inj found).symm⟩
      · rw [OrderedMap.find_set_of_ne here] at found
        exact .inr ⟨here, found⟩
    refine ⟨?_, fun n p found => ?_, fun n p found => ?_, fun n p found => ?_, fun p free => ?_, fun n p asked => ?_,
      fun n p found => ?_⟩
    · exact (OrderedMap.find_set_of_ne apart.symm).trans kept.root
    · rcases split n p found with ⟨-, rfl⟩ | ⟨-, before⟩
      · exact Nat.lt_succ_self _
      · exact (kept.below n p before).trans (Nat.lt_succ_self _)
    · rcases split n p found with ⟨rfl, rfl⟩ | ⟨-, before⟩
      · rw [new]
        rfl
      · rw [old p (kept.below n p before).ne]
        exact kept.name n p before
    · rcases split n p found with ⟨rfl, rfl⟩ | ⟨-, before⟩
      · rw [new, if_neg apart]
        rfl
      · rw [old p (kept.below n p before).ne]
        exact kept.m_root n p before
    · have here : p ≠ s.loggersMade := by
        rintro rfl
        exact free name OrderedMap.find_set_self
      rw [old p here]
      refine kept.others p fun n before => free n ?_
      have other : n ≠ name := by
        rintro rfl
        cases before.symm.trans absent
      exact (OrderedMap.find_set_of_ne other).trans before
    · rcases (last n p s.loggersMade).mp asked with before | ⟨rfl, rfl⟩
      · have found := kept.got n p before
        have other : n ≠ name := by
          rintro rfl
          cases found.symm.trans absent
        exact (OrderedMap.find_set_of_ne other).trans found
      · exact OrderedMap.find_set_self
    · rcases split n p found with here | ⟨-, before⟩
      · exact .inr ((last n p s.loggersMade).mpr (.inr here))
      · exact (kept.asked n p before).imp_right fun earlier => (last n p s.loggersMade).mpr (.inl earlier)

theorem Kept.step (kept : Kept ls s) (step : s.Step a t) : Kept (ls ++ [a]) t := by
  obtain ⟨allowed, rfl⟩ := step
  rcases same_act s a with same | ⟨name, p, rfl⟩ | ⟨name, rfl⟩
  · by_cases asks : ∃ name p, a = .getLogger name p
    · obtain ⟨name, p, rfl⟩ := asks
      cases (allowed : (s.getLogger name).1 = p)
      exact kept.getLogger name
    · exact kept.same same fun name p asked => asks ⟨name, p, asked⟩
  · cases (allowed : (s.getLogger name).1 = p)
    exact kept.getLogger name
  · exact kept.make name

theorem kept_of_run (run : Run Step new ls s) : Kept ls s := by
  induction run with
  | start => exact kept_new
  | next _ step ih => exact ih.step step

/-- The appenders of a logger, each of them once, in their order. -/
def logAppenders (s : LogHeap) (strftime : String → Nat → String) (p : LoggerPtr) (level : LogLevel)
    (event : LogEvent) :
    Option (List (AppenderPtr × String)) :=
  if (s.logger p).m_level.toNat ≤ level.toNat then
    (s.logger p).m_appenders.mapM fun i => ((s.heap i).log strftime level event).map fun text => (i, text)
  else some []

/-- The event passes the level of the logger and that of an attached appender that has no formatter. -/
def Unformatted (s : LogHeap) (p : LoggerPtr) (level : LogLevel) : Prop :=
  (s.logger p).m_level.toNat ≤ level.toNat ∧
    ∃ i ∈ (s.logger p).m_appenders, (s.heap i).m_level.toNat ≤ level.toNat ∧ (s.heap i).m_formatter = none

variable {strftime : String → Nat → String} {p : LoggerPtr} {level : LogLevel} {event : LogEvent} {fuel : Nat}

/-- Without a root logger to ask, no other logger gets the event. -/
theorem log_of_no_root (alone : (s.logger p).m_root = none) :
    s.log strftime (fuel + 1) p level event = s.logAppenders strftime p level event := by
  rw [log, logAppenders, alone]
  split
  · by_cases none : (s.logger p).m_appenders = []
    · rw [none]
      rfl
    · rw [if_pos none]
  · rfl

theorem Kept.no_root (kept : Kept ls s) : (s.logger s.manager.m_root).m_root = none :=
  (kept.m_root "root" _ kept.root).trans (if_pos rfl)

theorem Kept.m_root_of_asked (kept : Kept ls s) {name : String} (asked : .getLogger name p ∈ ls)
    (apart : name ≠ "root") :
    (s.logger p).m_root = some s.manager.m_root :=
  (kept.m_root name p (kept.got name p asked)).trans (if_neg apart)

theorem Kept.m_root_of_not_asked (kept : Kept ls s) (asked : ∀ name, .getLogger name p ∈ ls → name = "root") :
    (s.logger p).m_root = none := by
  by_cases free : ∀ name, s.manager.m_loggers.find name ≠ some p
  · exact kept.others p free
  · obtain ⟨name, found⟩ := not_forall_not.mp free
    refine (kept.m_root name p found).trans (if_pos ?_)
    rcases kept.asked name p found with root | before
    · exact root
    · exact asked name before

theorem mapM_eq_none {α β : Type} {f : α → Option β} {l : List α} : l.mapM f = none ↔ ∃ a ∈ l, f a = none := by
  induction l with
  | nil => simp
  | cons a l ih =>
    cases first : f a with
    | none => simp [first]
    | some b =>
      cases rest : l.mapM f with
      | none =>
        obtain ⟨c, member, none⟩ := ih.mp rest
        simp only [List.mapM_cons, first, rest]
        exact iff_of_true rfl ⟨c, List.mem_cons_of_mem _ member, none⟩
      | some bs =>
        have others : ¬ ∃ c ∈ l, f c = none := fun found => by cases (ih.mpr found).symm.trans rest
        simp only [List.mapM_cons, first, rest, List.exists_mem_cons_iff, others]
        exact iff_of_false nofun (by simp)

/-- A logger does not get through its appenders exactly when one that lets the event pass has no formatter. -/
theorem logAppenders_eq_none : s.logAppenders strftime p level event = none ↔ s.Unformatted p level := by
  have each : ∀ i, ((s.heap i).log strftime level event).map (fun text => (i, text)) = none ↔
      (s.heap i).m_level.toNat ≤ level.toNat ∧ (s.heap i).m_formatter = none := by
    intro i
    rw [Option.map_eq_none_iff, LogAppender.log]
    split
    · rename_i passes
      rw [Option.map_eq_none_iff]
      exact (and_iff_right passes).symm
    · rename_i low
      exact iff_of_false nofun fun both => low both.1
  rw [logAppenders, Unformatted]
  split
  · rename_i passes
    rw [mapM_eq_none, and_iff_right passes]
    simp only [each]
  · rename_i low
    exact iff_of_false nofun fun both => low both.1

/-- Whatever has been done to the loggers, the manager has given one logger to each name. An event goes to the
appenders of its logger, or, where it has none and the manager has given it under a name, to those of the root
logger, if both levels let it pass; that logger has no other to ask. There `log` meets a null formatter exactly
when an appender that lets the event pass has none. -/
theorem log_of_run (run : Run Step new ls s) :
    (∀ name other p q, .getLogger name p ∈ ls → .getLogger other q ∈ ls → (p = q ↔ name = other)) ∧
    ∀ strftime p level event fuel,
      ((s.logger p).m_appenders ≠ [] ∨ (∀ name, .getLogger name p ∈ ls → name = "root") →
        s.log strftime (fuel + 2) p level event = s.logAppenders strftime p level event) ∧
      ((s.logger p).m_appenders = [] → (∃ name, name ≠ "root" ∧ .getLogger name p ∈ ls) →
        s.log strftime (fuel + 2) p level event =
          if (s.logger p).m_level.toNat ≤ level.toNat then s.logAppenders strftime s.manager.m_root level event
          else some []) ∧
      (s.log strftime (fuel + 2) p level event = none ↔ s.Unformatted p level ∨
        (s.logger p).m_appenders = [] ∧ (∃ name, name ≠ "root" ∧ .getLogger name p ∈ ls) ∧
          (s.logger p).m_level.toNat ≤ level.toNat ∧ s.Unformatted s.manager.m_root level) := by
  have kept := kept_of_run run
  have direct : ∀ strftime p level event fuel,
      (s.logger p).m_appenders ≠ [] ∨ (∀ name, .getLogger name p ∈ ls → name = "root") →
      s.log strftime (fuel + 2) p level event = s.logAppenders strftime p level event := by
    rintro strftime p level event fuel (own | unnamed)
    · rw [log, logAppenders, if_pos own]
    · exact log_of_no_root (kept.m_root_of_not_asked unnamed)
  have passedOn : ∀ strftime p level event fuel,
      (s.logger p).m_appenders = [] → (∃ name, name ≠ "root" ∧ .getLogger name p ∈ ls) →
      s.log strftime (fuel + 2) p level event =
        if (s.logger p).m_level.toNat ≤ level.toNat then s.logAppenders strftime s.manager.m_root level event
        else some [] := by
    rintro strftime p level event fuel none ⟨name, apart, asked⟩
    rw [log, kept.m_root_of_asked asked apart, if_neg (not_not.mpr none)]
    split
    · exact log_of_no_root kept.no_root
    · rfl
  refine ⟨fun name other p q first second => ⟨fun same => ?_, fun same => ?_⟩,
    fun strftime p level event fuel =>
      ⟨direct strftime p level event fuel, passedOn strftime p level event fuel, ?_⟩⟩
  · rw [← kept.name name p (kept.got name p first), same]
    exact kept.name other q (kept.got other q second)
  · have found := kept.got name p first
    rw [same] at found
    exact Option.some.inj (found.symm.trans (kept.got other q second))
  · by_cases passes : (s.logger p).m_appenders = [] ∧ ∃ name, name ≠ "root" ∧ .getLogger name p ∈ ls
    · obtain ⟨none, named⟩ := passes
      have unformatted : ¬ s.Unformatted p level := by
        rintro ⟨-, i, attached, -⟩
        rw [none] at attached
        cases attached
      rw [passedOn strftime p level event fuel none named, or_iff_right unformatted, and_iff_right none,
        and_iff_right named]
      split
      · rename_i enough
        rw [logAppenders_eq_none, and_iff_right enough]
      · rename_i low
        exact iff_of_false nofun fun both => low both.1
    · rw [direct strftime p level event fuel, logAppenders_eq_none, or_iff_left fun both => passes ⟨both.1, both.2.1⟩]
      by_contra neither
      rw [not_or, not_not] at neither
      refine passes ⟨neither.1, ?_⟩
      by_contra unnamed
      refine neither.2 fun name asked => ?_
      by_contra apart
      exact unnamed ⟨name, apart, asked⟩

end Run

/-- An event that the main fiber of a thread logs. -/
def peerLost : LogEvent where
  m_file := "main.cc"
  m_line := 12
  m_elapse := 5
  m_threadId := 1
  m_fiberId := 0
  m_time := 0
  m_content := "peer lost"
  m_loggerName := "x"
  m_threadName := "main"

/-- A logger without appenders, whose level is `WARN`, passes an error on to the root logger and an info not.
The error meets a null formatter when the appender of the root logger has lost its own. -/
theorem log_of_run_warns : ∃ s t, Run Step new [.getLogger "x" 1, .setLevel 1 .WARN] s ∧
    Run Step new [.getLogger "x" 1, .setLevel 1 .WARN, .appenderSetFormatter 0 none] t ∧
    s.log (fun _ _ => "") 2 1 .ERROR peerLost = s.logAppenders (fun _ _ => "") 0 .ERROR peerLost ∧
    s.log (fun _ _ => "") 2 1 .INFO peerLost = some [] ∧ s.log (fun _ _ => "") 2 1 .ERROR peerLost ≠ none ∧
    t.log (fun _ _ => "") 2 1 .ERROR peerLost = none := by
  have first : Run Step new [.getLogger "x" 1, .setLevel 1 .WARN]
      ((new.act (.getLogger "x" 1)).act (.setLevel 1 .WARN)) :=
    .cons ⟨rfl, rfl⟩ (.cons ⟨Nat.lt_succ_self 1, rfl⟩ .start)
  have second : Run Step new [.getLogger "x" 1, .setLevel 1 .WARN, .appenderSetFormatter 0 none]
      (((new.act (.getLogger "x" 1)).act (.setLevel 1 .WARN)).act (.appenderSetFormatter 0 none)) :=
    .cons ⟨rfl, rfl⟩ (.cons ⟨Nat.lt_succ_self 1, rfl⟩ (.cons ⟨Nat.zero_lt_one, rfl⟩ .start))
  have asked : ∃ name, name ≠ "root" ∧ Act.getLogger name 1 ∈ [.getLogger "x" 1, .setLevel 1 .WARN] :=
    ⟨"x", by decide, List.mem_cons_self⟩
  have answers := (log_of_run first).2 (fun _ _ => "") 1
  have silent := (log_of_run second).2 (fun _ _ => "") 1 .ERROR peerLost 0
  refine ⟨_, _, first, second, (answers .ERROR peerLost 0).2.1 rfl asked, (answers .INFO peerLost 0).2.1 rfl asked,
    ?_, ?_⟩
  · rw [Ne, (answers .ERROR peerLost 0).2.2]
    rintro (⟨-, i, attached, -⟩ | ⟨-, -, -, -, i, attached, -, without⟩)
    · cases attached
    · cases List.mem_singleton.mp attached
      cases without
  · refine silent.2.2.mpr
      (.inr ⟨rfl, ⟨"x", by decide, List.mem_cons_self⟩, by decide, by decide, 0, ?_, by decide, rfl⟩)
    exact List.mem_singleton_self 0

end LogHeap
end Sylar
