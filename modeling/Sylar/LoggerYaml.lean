import Sylar.LoggerManager

/-! `toYamlString` of the appenders, of a logger and of the `LoggerManager`, and the value of the `logs` variable
that is read from its text. -/

namespace Sylar
open Machine YAML LogDefine

/-- The formatter that an appender has for itself. -/
def LogAppender.ownPattern (a : LogAppender) : Option String :=
  if a.m_hasFormatter then a.m_formatter.map (·.formatter.getPattern) else none

/-- The node of an appender: its type, its level, its file if there is one, and its own formatter. -/
def LogAppender.toYaml (a : LogAppender) (type : String) (file : Option String) : Option Node := do
  let node ← Node.Null.set "type" (.Scalar type)
  let node ← if a.m_level ≠ .UNKONW then node.set "level" (.Scalar a.m_level.ToString) else some node
  let node ← match file with
    | some m_filename => node.set "file" (.Scalar m_filename)
    | none => some node
  match a.ownPattern with
  | some pattern => node.set "formatter" (.Scalar pattern)
  | none => some node

namespace LogHeap
variable (yaml : Cpp) (s : LogHeap)

/-- `FileLogAppender::toYamlString` and `StdoutLogAppender::toYamlString`. -/
def appenderToYamlString (i : AppenderPtr) : Option String :=
  match s.type i with
  | .FileLogAppender m_filename => ((s.heap i).toYaml "FileLogAppender" (some m_filename)).map yaml.emit
  | .StdoutLogAppender => ((s.heap i).toYaml "StdoutLogAppender" none).map yaml.emit

/-- `YAML::Load(i->toYamlString())` of an appender. -/
def loadAppender (i : AppenderPtr) : Option Node := do yaml.Load (← s.appenderToYamlString yaml i)

/-- The node of a logger before its appenders are pushed. -/
def loggerNode (l : Logger) : Option Node := do
  let node ← Node.Null.set "name" (.Scalar l.m_name)
  let node ← if l.m_level ≠ .UNKONW then node.set "level" (.Scalar l.m_level.ToString) else some node
  let node ← node.set "level" (.Scalar l.m_level.ToString)
  match l.m_formatter with
  | some m_formatter => node.set "formatter" (.Scalar m_formatter.formatter.getPattern)
  | none => some node

/-- `Logger::toYamlString` -/
def loggerToYamlString (l : Logger) : Option String := do
  let node ← l.m_appenders.foldlM (fun node i => do pushUnder node "appenders" (← s.loadAppender yaml i))
    (← loggerNode l)
  return yaml.emit node

def loadLogger (p : LoggerPtr) : Option Node := do yaml.Load (← s.loggerToYamlString yaml (s.logger p).toLogger)

/-- `LoggerManager::toYamlString` -/
def toYamlString : Option String := do
  let node ← s.manager.m_loggers.entries.foldlM (fun (node : Node) i => do
    node.push_back (← s.loadLogger yaml i.2)) .Null
  return yaml.emit node

/-- The definition that is read back for an appender: nobody reads its level. -/
def defineAppender (i : AppenderPtr) : LogAppenderDefine :=
  match s.type i with
  | .FileLogAppender m_filename => { type := 1, formatter := (s.heap i).ownPattern.getD "", file := m_filename }
  | .StdoutLogAppender => { type := 2, formatter := (s.heap i).ownPattern.getD "" }

/-- The definition that is read back for a logger: the level of one that is off has no name. -/
def define (l : Logger) : LogDefine where
  name := l.m_name
  level := if l.m_level = .hundred then .UNKONW else l.m_level
  formatter := (l.m_formatter.map (·.formatter.getPattern)).getD ""
  appenders := l.m_appenders.map s.defineAppender

variable {yaml} {s}

/-- What is read from the node of an appender, with its file or without one. -/
theorem read_toYaml (a : LogAppender) (file : Option String) :
    ∃ na, a.toYaml (if file.isSome then "FileLogAppender" else "StdoutLogAppender") file = some na ∧
      readAppender na = some (some {
        type := if file.isSome then 1 else 2, formatter := a.ownPattern.getD "", file := file.getD "" }) := by
  by_cases unknown : a.m_level = .UNKONW <;> cases own : a.ownPattern <;> cases file <;>
    simp [LogAppender.toYaml, Node.set, Node.assign, own, unknown, readAppender, Node.get, Node.asString, List.lookup, field]

theorem read_loadAppender (inverse : yaml.Inverse) (i : AppenderPtr) :
    ∃ na, s.loadAppender yaml i = some na ∧ readAppender na = some (some (s.defineAppender i)) := by
  cases typed : s.type i with
  | FileLogAppender m_filename =>
    obtain ⟨na, made, read⟩ := read_toYaml (s.heap i) (some m_filename)
    refine ⟨na, ?_, ?_⟩
    · simp only [loadAppender, appenderToYamlString, typed]
      exact (congrArg (fun node => (node.map yaml.emit) >>= yaml.Load) made).trans (inverse na)
    · rw [read, defineAppender, typed]
      rfl
  | StdoutLogAppender =>
    obtain ⟨na, made, read⟩ := read_toYaml (s.heap i) none
    refine ⟨na, ?_, ?_⟩
    · simp only [loadAppender, appenderToYamlString, typed]
      exact (congrArg (fun node => (node.map yaml.emit) >>= yaml.Load) made).trans (inverse na)
    · rw [read, defineAppender, typed]
      rfl

section Push
variable {α : Type} {key : String} {base : List (String × Node)} {node : α → Option Node} {items : List α}

/-- A loop that pushes one node for each item under a key. -/
theorem foldlM_pushUnder_sequence (absent : key ∉ base.map Prod.fst) {nodes acc : List Node}
    (made : List.Forall₂ (fun a na => node a = some na) items nodes) :
    items.foldlM (fun n a => do pushUnder n key (← node a)) (.Map (base ++ [(key, Node.Sequence acc)])) =
      some (.Map (base ++ [(key, Node.Sequence (acc ++ nodes))])) := by
  induction made generalizing acc with
  | nil => rw [List.append_nil]; rfl
  | @cons a na items nodes first _ ih =>
    have pushed := pushUnder_next absent acc na
    rw [List.foldlM_cons, first, Option.bind_eq_bind, Option.bind_some, pushed]
    exact (@ih (acc ++ [na])).trans (by rw [List.append_assoc, List.singleton_append])

/-- The key is there only when there is an item. -/
theorem foldlM_pushUnder_map (absent : key ∉ base.map Prod.fst) {nodes : List Node}
    (made : List.Forall₂ (fun a na => node a = some na) items nodes) :
    items.foldlM (fun n a => do pushUnder n key (← node a)) (.Map base) =
      some (.Map (base ++ if nodes = [] then [] else [(key, Node.Sequence nodes)])) := by
  cases made with
  | nil => simp
  | @cons a na items nodes first others =>
    rw [List.foldlM_cons, first, Option.bind_eq_bind, Option.bind_some, pushUnder_first absent]
    exact foldlM_pushUnder_sequence absent others

end Push

/-- The nodes of the appenders, and what is read from each of them. -/
theorem exists_appenderNodes (inverse : yaml.Inverse) (appenders : List AppenderPtr) :
    ∃ nodes, List.Forall₂ (fun i na => s.loadAppender yaml i = some na) appenders nodes ∧
      List.Forall₂ (fun na w => ∀ acc : List LogAppenderDefine,
          (do return acc ++ (← readAppender na).toList) = some (acc ++ [w]))
        nodes (appenders.map s.defineAppender) := by
  induction appenders with
  | nil => exact ⟨[], .nil, .nil⟩
  | cons i appenders ih =>
    obtain ⟨na, made, read⟩ := read_loadAppender inverse i
    obtain ⟨nodes, others, reads⟩ := ih
    exact ⟨na :: nodes, .cons made others, .cons (fun acc => by simp [read]) reads⟩

/-- The entries of a logger without its appenders. -/
def loggerEntries (l : Logger) : List (String × Node) :=
  [("name", .Scalar l.m_name), ("level", .Scalar l.m_level.ToString)] ++
    match l.m_formatter with
    | some m_formatter => [("formatter", .Scalar m_formatter.formatter.getPattern)]
    | none => []

theorem loggerEntries_absent (l : Logger) : "appenders" ∉ (loggerEntries l).map Prod.fst := by
  rw [loggerEntries]
  split <;> simp

theorem loggerNode_eq (l : Logger) : loggerNode l = some (.Map (loggerEntries l)) := by
  by_cases unknown : l.m_level = .UNKONW <;> cases formatter : l.m_formatter <;>
    simp [loggerNode, loggerEntries, Node.set, Node.assign, unknown, formatter]

/-- The level of a logger is read from its name, and a logger that is off has none. -/
theorem FromString_level (l : Logger) : LogLevel.FromString l.m_level.ToString = (s.define l).level :=
  LogLevel.FromString_ToString l.m_level

theorem read_loadLogger (inverse : yaml.Inverse) (p : LoggerPtr) :
    ∃ n, s.loadLogger yaml p = some n ∧ readDefine n = some (some (s.define (s.logger p).toLogger)) := by
  generalize logger : (s.logger p).toLogger = l
  obtain ⟨nodes, made, reads⟩ := exists_appenderNodes inverse l.m_appenders
  have written : s.loggerToYamlString yaml l =
      some (yaml.emit (.Map (loggerEntries l ++ if nodes = [] then [] else [("appenders", Node.Sequence nodes)]))) := by
    rw [loggerToYamlString, loggerNode_eq, Option.bind_eq_bind, Option.bind_some,
      foldlM_pushUnder_map (loggerEntries_absent l) made]
    rfl
  refine ⟨.Map (loggerEntries l ++ if nodes = [] then [] else [("appenders", Node.Sequence nodes)]), ?_, ?_⟩
  · rw [loadLogger, logger, written]
    exact inverse _
  · have loop : forEach (.Sequence nodes) (fun acc a => (readAppender a).bind fun lad => some (acc ++ lad.toList)) [] =
        some (l.m_appenders.map s.defineAppender) := by
      rw [Node.Holds.sequence.forEach]
      refine (foldlM_insert reads []).trans ?_
      rw [LexicalCast.foldl_push]
      rfl
    have level := @FromString_level s l
    by_cases none : nodes = []
    · subst none
      have empty : l.m_appenders = [] := List.forall₂_nil_right_iff.mp made
      cases formatter : l.m_formatter <;>
        simp [readDefine, loggerEntries, Node.get, field, Node.asString, List.lookup, formatter, level, define, empty]
    · cases formatter : l.m_formatter <;>
        simp [readDefine, loggerEntries, Node.get, field, Node.asString, List.lookup, formatter, none, level, loop, define]

section Dump
variable {ls : List Act}

/-- The definitions of the loggers that the manager has. -/
def defines (s : LogHeap) : List LogDefine := s.manager.m_loggers.entries.map fun i => s.define (s.logger i.2).toLogger

theorem Kept.defines_sorted (kept : Kept ls s) : OrderedSet.Sorted LogDefine.before s.defines := by
  refine List.pairwise_map.mpr ?_
  refine s.manager.m_loggers.sorted.imp_of_mem fun {i j} first second less => decide_eq_true ?_
  have nameI : (s.logger i.2).m_name = i.1 := kept.name i.1 i.2 (OrderedMap.find_eq_some_iff.mpr first)
  have nameJ : (s.logger j.2).m_name = j.1 := kept.name j.1 j.2 (OrderedMap.find_eq_some_iff.mpr second)
  simpa only [define, nameI, nameJ] using less

/-- The nodes of the loggers, and what is read from each of them. -/
theorem exists_loggerNodes (inverse : yaml.Inverse) (entries : List (String × LoggerPtr)) :
    ∃ nodes, List.Forall₂ (fun i n => ∀ node : Node, (do node.push_back (← s.loadLogger yaml i.2)) = node.push_back n)
        entries nodes ∧
      List.Forall₂ (fun n w => ∀ vec : LogDefines, (do return (← readDefine n).elim vec vec.insert) = some (vec.insert w))
        nodes (entries.map fun i => s.define (s.logger i.2).toLogger) := by
  induction entries with
  | nil => exact ⟨[], .nil, .nil⟩
  | cons i entries ih =>
    obtain ⟨n, made, read⟩ := @read_loadLogger yaml s inverse i.2
    obtain ⟨nodes, others, reads⟩ := ih
    exact ⟨n :: nodes, .cons (fun node => by simp [made]) others, .cons (fun vec => by simp [read]) reads⟩

/-- The text of the manager is read as the definitions of its loggers. -/
theorem Kept.fromStr_toYamlString (kept : Kept ls s) (inverse : yaml.Inverse) :
    s.toYamlString yaml >>= (LexicalCast.logDefines yaml).fromStr = some ⟨s.defines, kept.defines_sorted⟩ := by
  obtain ⟨nodes, pushes, inserts⟩ := @exists_loggerNodes yaml s inverse s.manager.m_loggers.entries
  obtain ⟨node, pushed, holds⟩ := foldlM_push_back_null pushes
  have written : s.toYamlString yaml = some (yaml.emit node) := by
    rw [toYamlString, pushed]
    rfl
  have read : (LexicalCast.logDefines yaml).fromStr (yaml.emit node) =
      some (s.defines.foldl OrderedSet.Elements.insert .empty) := by
    simp only [LexicalCast.logDefines, inverse node]
    exact (holds.forEach _ _).trans (foldlM_insert inserts _)
  have rebuilt : s.defines.foldl OrderedSet.Elements.insert (.empty : LogDefines) = ⟨s.defines, kept.defines_sorted⟩ :=
    OrderedSet.Elements.ext (OrderedSet.Elements.foldl_insert .empty kept.defines_sorted)
  rw [written, Option.bind_eq_bind, Option.bind_some, read, rebuilt]

end Dump

end LogHeap

namespace LogHeap
variable {yaml : Cpp} {s : LogHeap} {ls : List Act}

theorem typed_define (l : Logger) : LogState.Typed (s.define l) := by
  intro a member
  obtain ⟨i, -, rfl⟩ := List.mem_map.mp member
  rw [defineAppender]
  split
  · exact .inl rfl
  · exact .inr rfl

/-- A formatter text that is left out gives no pattern. -/
theorem given_getD (text : Option String) : given (text.getD "") = text.bind given := by
  cases text with
  | some text => rfl
  | none => simp [given]

theorem view_defineAppender (i : AppenderPtr) (pattern : Option String) :
    (s.defineAppender i).view pattern = ⟨s.type i, .UNKONW, ((s.heap i).ownPattern.bind given).or pattern⟩ := by
  rw [← given_getD]
  cases typed : s.type i <;> simp [defineAppender, typed, LogAppenderDefine.view]

/-- What a new process shows of a logger that it has not had. -/
theorem view_of_unnamed {v : LogDefines} {c : LogConfig} {name : String} (set : LogConfig.initial.setValue v = some c)
    (other : name ≠ "root") (unnamed : v.find name = none) : c.state.view name = none := by
  have before : LogConfig.initial.state.view name = none := by
    simp only [LogState.view, LogConfig.initial, Function.update_of_ne other, Option.map_none]
  rw [LogConfig.setValue] at set
  split at set
  · cases set
    exact before
  · obtain ⟨state, done, set⟩ := Option.bind_eq_some_iff.mp set
    cases set
    rw [(LogConfig.initial_initial.owned.listener done).2, reconfigured, unnamed]
    exact before

/-- The text of the manager is loaded into a new process: it has the same loggers, each with its level, unless
it is off, with its pattern, if that is one, and with appenders of the same types, which have their own patterns
but no levels. -/
theorem reload_of_run (inverse : yaml.Inverse) (run : Run Step new ls s) : ∃ v c,
    s.toYamlString yaml >>= (LexicalCast.logDefines yaml).fromStr = some v ∧ LogConfig.initial.setValue v = some c ∧
    (∀ name, s.manager.m_loggers.find name = none → c.state.view name = none) ∧
    ∀ name p, s.manager.m_loggers.find name = some p → ∃ shown, c.state.view name = some shown ∧
      shown.level = (if (s.logger p).m_level = .hundred then .UNKONW else (s.logger p).m_level) ∧
      shown.pattern = some (((s.logger p).m_formatter.bind fun f => given f.formatter.getPattern).getD defaultPattern) ∧
      shown.appenders = (s.logger p).m_appenders.map fun i =>
        ⟨s.type i, .UNKONW, ((s.heap i).ownPattern.bind given).or shown.pattern⟩ := by
  have kept := kept_of_run run
  obtain ⟨v, read, elems⟩ :
      ∃ v, s.toYamlString yaml >>= (LexicalCast.logDefines yaml).fromStr = some v ∧ v.elems = s.defines :=
    ⟨_, kept.fromStr_toYamlString inverse, rfl⟩
  have typed : ∀ i ∈ v.elems, LogState.Typed i := by
    intro i member
    rw [elems] at member
    obtain ⟨e, -, rfl⟩ := List.mem_map.mp member
    exact typed_define _
  have names : ∀ name i, i ∈ v.elems ∧ i.name = name ↔
      ∃ p, s.manager.m_loggers.find name = some p ∧ s.define (s.logger p).toLogger = i := by
    intro name i
    rw [elems]
    constructor
    · rintro ⟨member, rfl⟩
      obtain ⟨e, inside, rfl⟩ := List.mem_map.mp member
      have found := OrderedMap.find_eq_some_iff.mpr inside
      exact ⟨e.2, (congrArg _ (kept.name e.1 e.2 found)).trans found, rfl⟩
    · rintro ⟨p, found, rfl⟩
      exact ⟨List.mem_map.mpr ⟨(name, p), OrderedMap.find_eq_some_iff.mp found, rfl⟩, kept.name name p found⟩
  obtain ⟨c, set⟩ := LogConfig.initial.exists_setValue typed
  refine ⟨v, c, read, set, fun name absent => ?_, fun name p found => ?_⟩
  · refine view_of_unnamed set (fun root => ?_) ?_
    · rw [root, kept.root] at absent
      cases absent
    · refine LogDefines.find_eq_none_iff.mpr fun member => ?_
      obtain ⟨i, inside, rfl⟩ := List.mem_map.mp member
      obtain ⟨p, found, -⟩ := (names i.name i).mp ⟨inside, rfl⟩
      cases absent.symm.trans found
  · obtain ⟨member, named⟩ := (names name (s.define (s.logger p).toLogger)).mpr ⟨p, found, rfl⟩
    have applied : LogConfig.initial.apply ([] ++ [v]) = some c := by
      rw [List.nil_append, LogConfig.apply, List.foldlM_cons, set]
      rfl
    obtain ⟨follows, value⟩ := LogConfig.initial_initial.apply applied
    have shows := follows.named _ (value.symm ▸ member)
    rw [LogConfig.latest_concat, LogDefines.find_eq_some_iff.mpr ⟨member, rfl⟩, named] at shows
    have pattern : (given (s.define (s.logger p).toLogger).formatter).getD defaultPattern =
        ((s.logger p).m_formatter.bind fun f => given f.formatter.getPattern).getD defaultPattern := by
      rw [define, given_getD, Option.bind_map]
      rfl
    refine ⟨_, shows, rfl, congrArg some pattern, ?_⟩
    rw [LogDefine.view, define, List.map_map]
    exact List.map_congr_left fun i _ => view_defineAppender i _

/-- A logger with a file of its own. -/
def warns : List Act :=
  [.getLogger "x" 1, .setLevel 1 .WARN, .newAppender (.FileLogAppender "x.log"), .appenderSetLevel 1 .ERROR,
    .addAppender 1 1]

theorem reload_of_run_warns : ∃ v c shown,
    (warns.foldl act new).toYamlString LogDefines.rootTexts.cpp >>=
      (LexicalCast.logDefines LogDefines.rootTexts.cpp).fromStr = some v ∧ LogConfig.initial.setValue v = some c ∧
    c.state.view "x" = some shown ∧ shown.level = .WARN ∧
    shown.appenders = [⟨.FileLogAppender "x.log", .UNKONW, shown.pattern⟩] := by
  have run : Run Step new warns (warns.foldl act new) :=
    .cons ⟨rfl, rfl⟩ (.cons ⟨Nat.lt_succ_self 1, rfl⟩ (.cons ⟨trivial, rfl⟩ (.cons ⟨Nat.lt_succ_self 1, rfl⟩
      (.cons ⟨⟨Nat.lt_succ_self 1, Nat.lt_succ_self 1⟩, rfl⟩ .start))))
  obtain ⟨v, c, read, set, -, shows⟩ := reload_of_run LogDefines.rootTexts.inverse run
  obtain ⟨shown, view, level, -, appenders⟩ := shows "x" 1 rfl
  exact ⟨v, c, shown, read, set, view, level, appenders⟩

end LogHeap
end Sylar
