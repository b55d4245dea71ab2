import Sylar.LoggerManager

/-! Where an event goes after the `logs` variable has been set: the listener on the loggers behind their pointers. -/

namespace Sylar
open Machine

namespace LogHeap

/-- An appender of the new value is made, and attached to the logger. -/
def addDefined (p : LoggerPtr) (s : LogHeap) (a : LogAppenderDefine) : Option LogHeap := do
  let type ← LogState.appenderType a
  let ap := LogState.ownFormatter (LogAppender.setLevel {} a.level) s.addr a.formatter
  let t := { s with
    heap := Function.update s.heap s.made ap
    type := Function.update s.type s.made type
    made := s.made + 1
    addr := s.addr + 1 }
  return t.call p fun l heap => l.addAppender heap s.made

/-- A logger that is new or has been changed. -/
def configure (s : LogHeap) (i : LogDefine) : Option LogHeap :=
  let (logger, s) := s.getLogger i.name
  let s := s.call logger fun l heap => (l.setLevel i.level, heap)
  let s := s.call logger fun l heap => if i.formatter = "" then (l, heap) else l.setPattern heap s.addr i.formatter
  let s := { s.call logger fun l heap => (l.clearAppenders, heap) with addr := s.addr + 1 }
  i.appenders.foldlM (addDefined logger) s

/-- A logger that the new value does not name. -/
def drop (s : LogHeap) (i : LogDefine) : LogHeap :=
  let (logger, s) := s.getLogger i.name
  s.call logger fun l heap => ((l.setLevel .hundred).clearAppenders, heap)

def listener (s : LogHeap) (old_value new_value : LogDefines) : Option LogHeap := do
  let s ← new_value.elems.foldlM (fun s i => if old_value.find i.name = some i then some s else s.configure i) s
  old_value.elems.foldlM (fun s i => if (new_value.find i.name).isNone then some (s.drop i) else some s) s

/-- The loggers by their names. -/
def abs (s : LogHeap) : LogState where
  loggers name := (s.manager.m_loggers.find name).map fun p => (s.logger p).toLogger
  heap := s.heap
  type := s.type
  made := s.made
  addr := s.addr

/-- The manager has the root logger, every other logger that it has asks that one, and no logger has two names. -/
def Rooted (s : LogHeap) : Prop := ∃ ls, Kept ls s

variable {s t : LogHeap} {p : LoggerPtr} {name : String}

theorem Rooted.same (rooted : s.Rooted) (same : Same s t) : t.Rooted := by
  obtain ⟨ls, kept⟩ := rooted
  exact ⟨_, kept.same same (fun _ _ => nofun : ∀ name p, Act.clearAppenders 0 ≠ .getLogger name p)⟩

theorem Rooted.getLogger (rooted : s.Rooted) (name : String) : (s.getLogger name).2.Rooted := by
  obtain ⟨ls, kept⟩ := rooted
  exact ⟨_, kept.getLogger name⟩

theorem Rooted.other (rooted : s.Rooted) {n : String} {q : LoggerPtr} (here : s.manager.m_loggers.find name = some p)
    (there : s.manager.m_loggers.find n = some q) (apart : n ≠ name) : q ≠ p := by
  obtain ⟨ls, kept⟩ := rooted
  rintro rfl
  exact apart ((kept.name n q there).symm.trans (kept.name name q here))

theorem find_getLogger (s : LogHeap) (name : String) :
    (s.getLogger name).2.manager.m_loggers.find name = some (s.getLogger name).1 := by
  rw [getLogger]
  split
  · assumption
  · exact OrderedMap.find_set_self

end LogHeap

namespace LogState

/-- A logger is written back under its name. -/
def put (s : LogState) (name : String) (logger : Logger) : LogState :=
  { s with loggers := Function.update s.loggers name (some logger) }

end LogState

namespace LogHeap

variable {s t : LogHeap} {p : LoggerPtr} {name : String}

theorem abs_getLogger (rooted : s.Rooted) (name : String) :
    (s.getLogger name).2.abs = (s.abs.getLogger name).2 ∧
      ((s.getLogger name).2.logger (s.getLogger name).1).toLogger = (s.abs.getLogger name).1 := by
  rw [getLogger, LogState.getLogger]
  cases found : s.manager.m_loggers.find name with
  | some q =>
    have there : s.abs.loggers name = some (s.logger q).toLogger := by simp [abs, found]
    rw [there]
    exact ⟨rfl, rfl⟩
  | none =>
    have absent : s.abs.loggers name = none := by simp [abs, found]
    rw [absent]
    obtain ⟨ls, kept⟩ := rooted
    have new : Function.update s.logger s.loggersMade
        { toLogger := Logger.new name s.addr, m_root := some s.manager.m_root } s.loggersMade =
        { toLogger := Logger.new name s.addr, m_root := some s.manager.m_root } := Function.update_self ..
    have loggers : (fun n => ((s.manager.m_loggers.set name s.loggersMade).find n).map fun q =>
        (Function.update s.logger s.loggersMade
          { toLogger := Logger.new name s.addr, m_root := some s.manager.m_root } q).toLogger) =
        Function.update s.abs.loggers name (some (Logger.new name s.addr)) := by
      funext n
      by_cases here : n = name
      · rw [here, OrderedMap.find_set_self, Function.update_self, Option.map_some, new]
      · rw [OrderedMap.find_set_of_ne here, Function.update_of_ne here]
        cases there : s.manager.m_loggers.find n with
        | none => simp [abs, there]
        | some q => simp [abs, there, Function.update_of_ne (kept.below n q there).ne]
    exact ⟨congrArg (fun loggers : String → Option Logger =>
        ({ s.abs with loggers, addr := s.addr + 1 } : LogState)) loggers,
      congrArg _ new⟩

/-- A member function of a logger, by name. -/
theorem abs_call (rooted : s.Rooted) (found : s.manager.m_loggers.find name = some p)
    (f : Logger → (AppenderPtr → LogAppender) → Logger × (AppenderPtr → LogAppender)) :
    (s.call p f).abs = { s.abs with heap := (f (s.logger p).toLogger s.heap).2 }.put name
      (f (s.logger p).toLogger s.heap).1 := by
  have loggers : (s.call p f).abs.loggers =
      Function.update s.abs.loggers name (some (f (s.logger p).toLogger s.heap).1) := by
    funext n
    by_cases here : n = name
    · simp [here, abs, call, found]
    · rw [Function.update_of_ne here]
      cases there : s.manager.m_loggers.find n with
      | none => simp [abs, call, there]
      | some q => simp [abs, call, there, Function.update_of_ne (rooted.other found there here)]
  exact congrArg (fun loggers : String → Option Logger =>
    ({ s.abs with loggers, heap := (f (s.logger p).toLogger s.heap).2 } : LogState)) loggers

/-- While the listener is at a logger, the rest of the state is `rest`. -/
structure Holds (name : String) (p : LoggerPtr) (s : LogHeap) (logger : Logger) (rest : LogState) : Prop where
  rooted : s.Rooted
  found : s.manager.m_loggers.find name = some p
  abs : s.abs = rest.put name logger

variable {l : Logger} {rest : LogState}

theorem Holds.logger (holds : Holds name p s l rest) : (s.logger p).toLogger = l := by
  have loggers : s.abs.loggers name = some l := by
    rw [holds.abs]
    exact Function.update_self ..
  simpa [LogHeap.abs, holds.found] using loggers

theorem Holds.heap (holds : Holds name p s l rest) : s.heap = rest.heap := congrArg LogState.heap holds.abs

theorem Holds.call (holds : Holds name p s l rest)
    {f : Logger → (AppenderPtr → LogAppender) → Logger × (AppenderPtr → LogAppender)}
    (m_name : ∀ k heap, (f k heap).1.m_name = k.m_name) :
    Holds name p (s.call p f) (f l rest.heap).1 { rest with heap := (f l rest.heap).2 } where
  rooted := holds.rooted.same (same_call p m_name)
  found := holds.found
  abs := by
    rw [abs_call holds.rooted holds.found, holds.logger, holds.heap, holds.abs]
    simp only [LogState.put, Function.update_idem]

/-- The state but for its loggers may be changed on both sides. -/
theorem Holds.appenders (holds : Holds name p s l rest) (heap : AppenderPtr → LogAppender)
    (type : AppenderPtr → AppenderType) (made : AppenderPtr) (addr : Nat) :
    Holds name p { s with heap, type, made, addr } l { rest with heap, type, made, addr } where
  rooted := holds.rooted.same ⟨rfl, rfl, fun _ => rfl, fun _ => rfl⟩
  found := holds.found
  abs := congrArg (fun u : LogState => ({ u with heap, type, made, addr } : LogState)) holds.abs

theorem Holds.addr (holds : Holds name p s l rest) (addr : Nat) :
    Holds name p { s with addr } l { rest with addr } where
  rooted := holds.rooted.same ⟨rfl, rfl, fun _ => rfl, fun _ => rfl⟩
  found := holds.found
  abs := congrArg (fun u : LogState => ({ u with addr } : LogState)) holds.abs

theorem Holds.addDefined {a : LogAppenderDefine} (holds : Holds name p s l rest)
    (done : s.addDefined p a = some t) :
    ∃ k u, LogState.addDefined l rest a = some (k, u) ∧ Holds name p t k u := by
  obtain ⟨type, typed, done⟩ := Option.bind_eq_some_iff.mp done
  cases done
  refine ⟨_, _, by rw [LogState.addDefined, typed]; rfl, ?_⟩
  have made : s.made = rest.made := congrArg LogState.made holds.abs
  have types : s.type = rest.type := congrArg LogState.type holds.abs
  have addr : s.addr = rest.addr := congrArg LogState.addr holds.abs
  rw [made, types, addr, holds.heap]
  exact (holds.appenders _ _ _ _).call fun _ _ => rfl

theorem Holds.foldlM {appenders : List LogAppenderDefine} (holds : Holds name p s l rest)
    (done : appenders.foldlM (LogHeap.addDefined p) s = some t) :
    ∃ k u, appenders.foldlM (fun r a => LogState.addDefined r.1 r.2 a) (l, rest) = some (k, u) ∧
      Holds name p t k u := by
  induction appenders generalizing s l rest with
  | nil =>
    cases done
    exact ⟨l, rest, rfl, holds⟩
  | cons a appenders ih =>
    rw [List.foldlM_cons] at done
    obtain ⟨u, first, later⟩ := Option.bind_eq_some_iff.mp done
    obtain ⟨k, v, added, holds⟩ := holds.addDefined first
    obtain ⟨m, w, all, holds⟩ := ih holds later
    refine ⟨m, w, ?_, holds⟩
    rw [List.foldlM_cons, added]
    exact all

theorem Rooted.holds (rooted : s.Rooted) (name : String) :
    Holds name (s.getLogger name).1 (s.getLogger name).2 (s.abs.getLogger name).1 (s.abs.getLogger name).2 := by
  obtain ⟨abs, logger⟩ := abs_getLogger rooted name
  have found := s.find_getLogger name
  refine ⟨rooted.getLogger name, found, ?_⟩
  rw [← abs, ← logger]
  have there : (s.getLogger name).2.abs.loggers name =
      some ((s.getLogger name).2.logger (s.getLogger name).1).toLogger := by
    simp [LogHeap.abs, found]
  rw [LogState.put, ← there, Function.update_eq_self]

/-- The listener on the pointers does what the one on the names does. -/
theorem Rooted.configure {i : LogDefine} (rooted : s.Rooted) (done : s.configure i = some t) :
    t.Rooted ∧ s.abs.configure i = some t.abs := by
  have got := rooted.holds i.name
  have addr : (s.getLogger i.name).2.addr = (s.abs.getLogger i.name).2.addr := congrArg LogState.addr got.abs
  have leveled := got.call (f := fun l heap => (l.setLevel i.level, heap)) fun _ _ => rfl
  have formatted := leveled.call (f := fun l heap =>
      if i.formatter = "" then (l, heap) else l.setPattern heap (s.getLogger i.name).2.addr i.formatter) (by
    intro k heap
    split
    · rfl
    · exact setPattern_m_name ..)
  have cleared := formatted.call (f := fun l heap => (l.clearAppenders, heap)) fun _ _ => rfl
  obtain ⟨k, u, added, holds⟩ := (cleared.addr ((s.getLogger i.name).2.addr + 1)).foldlM done
  refine ⟨holds.rooted, ?_⟩
  rw [LogState.configure, holds.abs]
  rw [addr] at added
  exact Option.bind_eq_some_iff.mpr ⟨(k, u), added, rfl⟩

theorem Rooted.drop (rooted : s.Rooted) (i : LogDefine) : (s.drop i).Rooted ∧ (s.drop i).abs = s.abs.drop i := by
  have dropped := (rooted.holds i.name).call (f := fun l heap => ((l.setLevel .hundred).clearAppenders, heap))
    fun _ _ => rfl
  exact ⟨dropped.rooted, dropped.abs⟩

/-- A loop over definitions. -/
theorem Rooted.loop {step : LogHeap → LogDefine → Option LogHeap} (step' : LogState → LogDefine → Option LogState)
    (each : ∀ s t i, Rooted s → step s i = some t → t.Rooted ∧ step' s.abs i = some t.abs) {elems : List LogDefine}
    (rooted : s.Rooted) (done : elems.foldlM step s = some t) : t.Rooted ∧ elems.foldlM step' s.abs = some t.abs := by
  induction elems generalizing s with
  | nil =>
    cases done
    exact ⟨rooted, rfl⟩
  | cons i elems ih =>
    rw [List.foldlM_cons] at done
    obtain ⟨u, first, later⟩ := Option.bind_eq_some_iff.mp done
    obtain ⟨rootedU, here⟩ := each s u i rooted first
    obtain ⟨rootedT, there⟩ := ih rootedU later
    refine ⟨rootedT, ?_⟩
    rw [List.foldlM_cons, here]
    exact there

theorem Rooted.listener {old_value new_value : LogDefines} (rooted : s.Rooted)
    (done : s.listener old_value new_value = some t) :
    t.Rooted ∧ s.abs.listener old_value new_value = some t.abs := by
  obtain ⟨u, first, second⟩ := Option.bind_eq_some_iff.mp done
  obtain ⟨rootedU, configured⟩ := rooted.loop
    (fun s i => if old_value.find i.name = some i then some s else s.configure i) (fun s t i rooted done => by
      split at done
      · rename_i unchanged
        cases done
        exact ⟨rooted, if_pos unchanged⟩
      · rename_i changed
        rw [if_neg changed]
        exact rooted.configure done) first
  obtain ⟨rootedT, dropped⟩ := rootedU.loop
    (fun s i => if (new_value.find i.name).isNone then some (s.drop i) else some s) (fun s t i rooted done => by
      split at done
      · rename_i unnamed
        cases done
        rw [if_pos unnamed, (rooted.drop i).2]
        exact ⟨(rooted.drop i).1, rfl⟩
      · rename_i named
        cases done
        exact ⟨rooted, if_neg named⟩) second
  refine ⟨rootedT, ?_⟩
  rw [LogState.listener, configured]
  exact dropped

end LogHeap

/-- The loggers and the value of the `logs` variable. -/
structure LogSystem where
  heap : LogHeap := .new
  m_val : LogDefines := .empty

namespace LogSystem

/-- Somebody asks for a logger, or the variable is set. -/
inductive Op
  | getLogger (name : String)
  | setValue (v : LogDefines)

def op (c : LogSystem) : Op → Option LogSystem
  | .getLogger name => some { c with heap := (c.heap.getLogger name).2 }
  | .setValue v =>
    if v = c.m_val then some c
    else do
      let heap ← c.heap.listener c.m_val v
      return { heap, m_val := v }

def Step (c : LogSystem) (o : Op) (d : LogSystem) : Prop := c.op o = some d

def values (os : List Op) : List LogDefines :=
  os.filterMap fun
    | .setValue v => some v
    | .getLogger _ => none

end LogSystem

/-- A logger that no value has named. -/
def unconfigured (name : String) : LoggerView where
  level := .DEBUG
  pattern := some defaultPattern
  appenders := if name = "root" then [⟨.StdoutLogAppender, .DEBUG, some defaultPattern⟩] else []

/-- What a logger has to be after the values: as the last one defines it, or off if only earlier ones have named it. -/
def shown (vs : List LogDefines) (name : String) : LoggerView :=
  match vs.getLast?.bind fun v => v.find name with
  | some i => i.view (some (LogConfig.latest vs name))
  | none =>
    if vs.any fun v => (v.find name).isSome then ⟨.hundred, some (LogConfig.latest vs name), []⟩ else unconfigured name

section
variable (strftime : String → Nat → String) (level : LogLevel) (event : LogEvent)

/-- What an appender writes, which is nothing if its level does not let the event pass. -/
def AppenderView.line (a : AppenderView) : AppenderType × String :=
  (a.type, if a.level.toNat ≤ level.toNat then
    (a.pattern.map fun pattern => (LogFormatter.new pattern).format strftime level event).getD "" else "")

def LoggerView.lines (v : LoggerView) : List (AppenderType × String) :=
  if v.level.toNat ≤ level.toNat then v.appenders.map (·.line strftime level event) else []

/-- Where an event goes after the values. A logger without appenders passes it on to the root logger. -/
def delivered (vs : List LogDefines) (name : String) : List (AppenderType × String) :=
  if (shown vs name).appenders = [] ∧ name ≠ "root" then
    if (shown vs name).level.toNat ≤ level.toNat then (shown vs "root").lines strftime level event else []
  else (shown vs name).lines strftime level event

end

namespace LogConfig
variable {vs : List LogDefines} {v : LogDefines} {name : String}

theorem latest_of_unnamed (unnamed : (vs.any fun v => (v.find name).isSome) = false) :
    latest vs name = defaultPattern := by
  induction vs using List.reverseRecOn with
  | nil => rfl
  | append_singleton vs v ih =>
    simp only [List.any_append, List.any_cons, List.any_nil, Bool.or_false, Bool.or_eq_false_iff] at unnamed
    rw [latest_concat, Option.not_isSome_iff_eq_none.mp (ne_true_of_eq_false unnamed.2)]
    exact ih unnamed.1

end LogConfig

variable {vs : List LogDefines} {v : LogDefines} {name : String}

theorem shown_pattern : (shown vs name).pattern = some (LogConfig.latest vs name) := by
  rw [shown]
  split
  · rfl
  · split
    · rfl
    · rename_i unnamed
      rw [LogConfig.latest_of_unnamed (Bool.not_eq_true _ ▸ unnamed)]
      rfl

/-- A logger that does not exist is reconfigured as if it did. -/
theorem reconfigured_getD (old_value new_value : LogDefines) (name : String) (view : Option LoggerView) :
    reconfigured old_value new_value name (some (view.getD (unconfigured name))) =
      some ((reconfigured old_value new_value name view).getD (unconfigured name)) := by
  cases view with
  | some w =>
    unfold reconfigured
    split
    · split <;> rfl
    · split <;> rfl
  | none =>
    unfold reconfigured
    split
    · split <;> rfl
    · split <;> rfl

/-- The last value is the one that the variable has. -/
theorem bind_getLast? (vs : List LogDefines) (name : String) :
    (vs.getLast?.bind fun v => v.find name) = (vs.getLast?.getD .empty).find name := by
  cases vs.getLast? with
  | none => rfl
  | some v => rfl

theorem any_of_last {i : LogDefine} (last : (vs.getLast?.getD .empty).find name = some i) :
    (vs.any fun v => (v.find name).isSome) = true := by
  rw [← bind_getLast?] at last
  obtain ⟨v, isLast, found⟩ := Option.bind_eq_some_iff.mp last
  exact List.any_eq_true.mpr ⟨v, List.mem_of_getLast? isLast, by rw [found]; rfl⟩

theorem LogConfig.latest_of_last {i : LogDefine} (last : (vs.getLast?.getD .empty).find name = some i) :
    (given i.formatter).getD (latest vs name) = latest vs name := by
  rcases List.eq_nil_or_concat vs with rfl | ⟨ws, w, rfl⟩
  · cases last
  · rw [List.concat_eq_append, List.getLast?_concat] at last
    rw [List.concat_eq_append, latest_concat]
    rw [show w.find name = some i from last]
    cases own : given i.formatter with
    | none => simp [own]
    | some f => simp [own]

/-- The listener takes what a logger has to be to what it has to be with the next value. -/
theorem reconfigured_shown (vs : List LogDefines) (v : LogDefines) (name : String) :
    reconfigured (vs.getLast?.getD .empty) v name (some (shown vs name)) = some (shown (vs ++ [v]) name) := by
  have pattern : patternOf (some (shown vs name)) = some (LogConfig.latest vs name) := shown_pattern
  have next : shown (vs ++ [v]) name = match v.find name with
      | some i => i.view (some (LogConfig.latest (vs ++ [v]) name))
      | none =>
        if (vs ++ [v]).any fun v => (v.find name).isSome then
          ⟨.hundred, some (LogConfig.latest (vs ++ [v]) name), []⟩
        else unconfigured name := by
    rw [shown, List.getLast?_concat]
    rfl
  rw [next, LogConfig.latest_concat, reconfigured, pattern]
  cases new : v.find name with
  | some i =>
    simp only [Option.bind_some]
    split
    · rename_i unchanged
      rw [shown, bind_getLast?, unchanged, LogConfig.latest_of_last unchanged]
    · rw [Option.or_some]
  | none =>
    have rest : ((vs ++ [v]).any fun v => (v.find name).isSome) = vs.any fun v => (v.find name).isSome := by
      simp [new]
    simp only [Option.bind_none, Option.getD_none, rest]
    cases old : (vs.getLast?.getD .empty).find name with
    | some i =>
      rw [any_of_last old]
      rfl
    | none =>
      rw [shown, bind_getLast?, old]
      rfl

/-- A value that the variable already has leaves it open nothing. -/
theorem shown_same (vs : List LogDefines) (name : String) :
    shown (vs ++ [vs.getLast?.getD .empty]) name = shown vs name := by
  refine Option.some.inj ((reconfigured_shown vs _ name).symm.trans ?_)
  unfold reconfigured
  cases found : (vs.getLast?.getD .empty).find name with
  | some i => exact if_pos rfl
  | none => rfl

namespace LogSystem
variable {c d : LogSystem} {o : Op} {os : List Op}

/-- What the system is after the values. -/
structure Shown (vs : List LogDefines) (c : LogSystem) : Prop where
  rooted : c.heap.Rooted
  owned : c.heap.abs.Owned
  value : c.m_val = vs.getLast?.getD .empty
  view : ∀ name, (c.heap.abs.view name).getD (unconfigured name) = shown vs name

theorem abs_new : LogHeap.new.abs = LogConfig.initial.state := by
  have loggers : LogHeap.new.abs.loggers = LogConfig.initial.state.loggers := by
    funext name
    by_cases root : name = "root"
    · rw [root]
      rfl
    · simp only [LogConfig.initial, Function.update_of_ne root]
      have absent : LogHeap.new.manager.m_loggers.find name = none := OrderedMap.find_set_of_ne root
      show (LogHeap.new.manager.m_loggers.find name).map _ = none
      rw [absent]
      rfl
  exact congrArg (fun loggers : String → Option Logger => ({ LogConfig.initial.state with loggers } : LogState)) loggers

theorem shown_init : Shown [] {} where
  rooted := ⟨[], LogHeap.kept_new⟩
  owned := abs_new ▸ LogConfig.initial_initial.owned
  value := rfl
  view name := by
    by_cases root : name = "root"
    · rw [root]
      rfl
    · have absent : LogHeap.new.manager.m_loggers.find name = none := OrderedMap.find_set_of_ne root
      simp only [LogState.view, LogHeap.abs, absent]
      rfl

/-- A logger that is asked for is there, as no value has named it. -/
theorem Shown.getLogger (shows : Shown vs c) (name : String) :
    Shown vs { c with heap := (c.heap.getLogger name).2 } := by
  have abs := (LogHeap.abs_getLogger shows.rooted name).1
  cases found : c.heap.manager.m_loggers.find name with
  | some p =>
    have same : (c.heap.getLogger name).2 = c.heap := by rw [LogHeap.getLogger, found]
    rw [same]
    exact shows
  | none =>
    obtain ⟨ls, kept⟩ := shows.rooted
    have apart : name ≠ "root" := by
      rintro rfl
      cases kept.root.symm.trans found
    have absent : c.heap.abs.loggers name = none := by simp [LogHeap.abs, found]
    obtain ⟨heap, type, made⟩ := LogState.getLogger_heap c.heap.abs name
    have put : (c.heap.abs.getLogger name).2.loggers name = some (Logger.new name c.heap.addr) := by
      rw [LogState.getLogger, absent]
      exact Function.update_self ..
    have shows' := shows.owned.shows put (fun n other => LogState.getLogger_of_ne other) (Option.some_ne_none _)
      (fun _ member => absurd member List.not_mem_nil)
      (Nat.le_of_eq made.symm) fun a _ _ => ⟨congrFun heap a, congrFun type a⟩
    rw [← abs] at shows'
    refine ⟨shows.rooted.getLogger name, shows'.owned, shows.value, fun n => ?_⟩
    have before := shows.view n
    by_cases here : n = name
    · subst here
      rw [LogState.view, absent] at before
      rw [shows'.here, ← before, unconfigured, if_neg apart]
      rfl
    · rw [shows'.others n here]
      exact before

theorem Shown.setValue (shows : Shown vs c) (set : c.op (.setValue v) = some d) : Shown (vs ++ [v]) d := by
  rw [op] at set
  split at set
  · rename_i same
    cases set
    rw [same]
    refine ⟨shows.rooted, shows.owned, by rw [List.getLast?_concat]; rfl, fun name => ?_⟩
    rw [shows.value, shown_same]
    exact shows.view name
  · obtain ⟨heap, done, set⟩ := Option.bind_eq_some_iff.mp set
    cases set
    obtain ⟨rooted, listened⟩ := shows.rooted.listener done
    obtain ⟨owned, view⟩ := shows.owned.listener listened
    refine ⟨rooted, owned, by rw [List.getLast?_concat]; rfl, fun name => ?_⟩
    have next := reconfigured_shown vs v name
    rw [← shows.view name, reconfigured_getD, ← shows.value] at next
    rw [view name]
    exact Option.some.inj next

theorem shown_of_run (run : Run Step {} os c) : Shown (values os) c := by
  induction run with
  | start => exact shown_init
  | @next os c o d _ step ih =>
    rw [values, List.filterMap_append]
    cases o with
    | getLogger name =>
      cases step
      rw [List.filterMap_cons_none rfl, List.filterMap_nil, List.append_nil]
      exact ih.getLogger name
    | setValue v => exact ih.setValue step

end LogSystem

namespace LogHeap
variable {s : LogHeap} {strftime : String → Nat → String} {level : LogLevel} {event : LogEvent}

/-- What is written depends on what the loggers show. -/
theorem lines_of_view (strftime : String → Nat → String) (level : LogLevel) (event : LogEvent) {name : String}
    {p : LoggerPtr} {w : LoggerView} (found : s.manager.m_loggers.find name = some p)
    (view : s.abs.view name = some w) (formats : ∀ a ∈ w.appenders, a.pattern ≠ none) :
    (s.logAppenders strftime p level event).map (List.map fun line => (s.type line.1, line.2)) =
      some (w.lines strftime level event) := by
  have is : w = ⟨(s.logger p).m_level, (s.logger p).m_formatter.map (·.formatter.getPattern),
      (s.logger p).m_appenders.map s.abs.viewAppender⟩ := by
    simp only [LogState.view, abs, found, Option.map_some, Option.some.injEq] at view
    exact view.symm
  subst is
  have each : ∀ i ∈ (s.logger p).m_appenders, (s.heap i).log strftime level event =
      some ((s.abs.viewAppender i).line strftime level event).2 := by
    intro i attached
    obtain ⟨pattern, has⟩ := Option.ne_none_iff_exists'.mp (formats _ (List.mem_map_of_mem attached))
    obtain ⟨f, formatter, rfl⟩ := Option.map_eq_some_iff.mp has
    have formatter : (s.heap i).m_formatter = some f := formatter
    have text : f.formatter = LogFormatter.new f.formatter.getPattern := LogFormatter.ext_pattern rfl
    rw [LogAppender.log, AppenderView.line, has, formatter]
    show _ = some (if (s.heap i).m_level.toNat ≤ level.toNat then _ else "")
    split
    · exact congrArg (fun g : LogFormatter => some (g.format strftime level event)) text
    · rfl
  have all : ∀ l : List AppenderPtr, (∀ i ∈ l, (s.heap i).log strftime level event =
      some ((s.abs.viewAppender i).line strftime level event).2) →
      (l.mapM fun i => ((s.heap i).log strftime level event).map fun text => (i, text)) =
        some (l.map fun i => (i, ((s.abs.viewAppender i).line strftime level event).2)) := by
    intro l writes
    induction l with
    | nil => rfl
    | cons i l ih =>
      rw [List.mapM_cons, writes i List.mem_cons_self, ih fun j member => writes j (List.mem_cons_of_mem _ member)]
      rfl
  rw [logAppenders, LoggerView.lines]
  split
  · rw [all _ each, Option.map_some, List.map_map, List.map_map]
    rfl
  · rfl

end LogHeap

theorem shown_formats (vs : List LogDefines) (name : String) : ∀ a ∈ (shown vs name).appenders, a.pattern ≠ none := by
  intro a attached
  rw [shown] at attached
  split at attached
  · rename_i i _
    obtain ⟨define, -, rfl⟩ := List.mem_map.mp attached
    cases own : given define.formatter <;> simp [LogAppenderDefine.view, own]
  · split at attached
    · cases attached
    · rw [unconfigured] at attached
      split at attached
      · rw [List.mem_singleton.mp attached]
        exact Option.some_ne_none _
      · cases attached

namespace LogSystem
variable {c : LogSystem} {os : List Op}

/-- A logger that is there shows what it has to show. -/
theorem Shown.view_eq (shows : Shown vs c) {p : LoggerPtr} (found : c.heap.manager.m_loggers.find name = some p) :
    c.heap.abs.view name = some (shown vs name) ∧
      ((c.heap.logger p).m_appenders = [] ↔ (shown vs name).appenders = []) ∧
      (c.heap.logger p).m_level = (shown vs name).level := by
  have there : c.heap.abs.view name = some ⟨(c.heap.logger p).m_level,
      (c.heap.logger p).m_formatter.map (·.formatter.getPattern),
      (c.heap.logger p).m_appenders.map c.heap.abs.viewAppender⟩ := by
    simp only [LogState.view, LogHeap.abs, found, Option.map_some]
  have same := shows.view name
  rw [there, Option.getD_some] at same
  rw [there, ← same]
  exact ⟨rfl, List.map_eq_nil_iff.symm, rfl⟩

/-- Whatever values the variable has been set to, and whoever has asked for loggers, an event that is logged under
a name goes to the appenders that the last value gives to the name, in their order, each with its own pattern or
the latest one of the logger, or to those of the root logger, or nowhere. -/
theorem delivered_of_run (run : Run Step {} os c) (strftime : String → Nat → String) (name : String) (level : LogLevel)
    (event : LogEvent) (fuel : Nat) :
    ((c.heap.getLogger name).2.log strftime (fuel + 2) (c.heap.getLogger name).1 level event).map
        (List.map fun line => ((c.heap.getLogger name).2.type line.1, line.2)) =
      some (delivered strftime level event (values os) name) := by
  have shows := (shown_of_run run).getLogger name
  have found := c.heap.find_getLogger name
  obtain ⟨ls, kept⟩ := shows.rooted
  obtain ⟨view, empty, passes⟩ := shows.view_eq found
  obtain ⟨rootView, -, -⟩ := shows.view_eq kept.root
  have lines := LogHeap.lines_of_view strftime level event found view (shown_formats _ _)
  have rootLines := LogHeap.lines_of_view strftime level event kept.root rootView (shown_formats _ _)
  have m_root := kept.m_root name _ found
  rw [delivered]
  by_cases bare : (shown (values os) name).appenders = []
  · by_cases root : name = "root"
    · rw [if_pos root] at m_root
      rw [if_neg (fun asks => asks.2 root), LogHeap.log_of_no_root m_root]
      exact lines
    · rw [if_neg root] at m_root
      rw [if_pos ⟨bare, root⟩, LogHeap.log, m_root, passes, if_neg (not_not.mpr (empty.mpr bare))]
      split
      · exact (congrArg (Option.map _) (LogHeap.log_of_no_root kept.no_root)).trans rootLines
      · rfl
  · rw [if_neg (fun asks => bare asks.1)]
    have own : (c.heap.getLogger name).2.log strftime (fuel + 2) (c.heap.getLogger name).1 level event =
        (c.heap.getLogger name).2.logAppenders strftime (c.heap.getLogger name).1 level event := by
      rw [LogHeap.log, LogHeap.logAppenders, if_pos fun absent => bare (empty.mp absent)]
    rw [own]
    exact lines

/-- A logger is asked for and configured with two appenders, and the next value configures another one in its place. -/
def turnsOff : List Op :=
  let x : LogDefine :=
    { name := "x", level := .WARN, formatter := "%m", appenders := [{ type := 2 }, { type := 1, file := "x.log" }] }
  let y : LogDefine := { name := "y", level := .WARN, formatter := "%p %m", appenders := [{ type := 2 }] }
  [.getLogger "x", .setValue ⟨[x], List.pairwise_singleton _ _⟩, .setValue ⟨[y], List.pairwise_singleton _ _⟩]

/-- An event is delivered to the second logger, and not to the first one. -/
theorem delivered_of_run_turnsOff : ∃ c, Run Step {} turnsOff c ∧
    ((c.heap.getLogger "x").2.log (fun _ _ => "") 2 (c.heap.getLogger "x").1 .FATAL LogHeap.peerLost).map
      (List.map fun line => ((c.heap.getLogger "x").2.type line.1, line.2)) = some [] ∧
    ((c.heap.getLogger "y").2.log (fun _ _ => "") 2 (c.heap.getLogger "y").1 .FATAL LogHeap.peerLost).map
      (List.map fun line => ((c.heap.getLogger "y").2.type line.1, line.2)) =
        some [(.StdoutLogAppender, "FATAL peer lost")] := by
  obtain ⟨c, done⟩ : ∃ c, acts op {} turnsOff = some c := ⟨_, rfl⟩
  have run : Run Step {} turnsOff c := run_of_acts op done
  have off : delivered (fun _ _ => "") .FATAL LogHeap.peerLost (values turnsOff) "x" = [] := rfl
  have line : delivered (fun _ _ => "") .FATAL LogHeap.peerLost (values turnsOff) "y" =
      [(.StdoutLogAppender, "FATAL peer lost")] := rfl
  have delivers := fun name => delivered_of_run run (fun _ _ => "") name .FATAL LogHeap.peerLost 0
  exact ⟨c, run, off ▸ delivers "x", line ▸ delivers "y"⟩

end LogSystem
end Sylar
