import Sylar.LexicalCast
import Sylar.LogFormatter

/-! The value of the `logs` variable, its text, and what is read back from the text. -/

namespace Sylar
open YAML

structure LogAppenderDefine where
  type : Nat := 0
  level : LogLevel := .UNKONW
  formatter : String := ""
  file : String := ""
  deriving DecidableEq

structure LogDefine where
  name : String
  level : LogLevel := .UNKONW
  formatter : String := ""
  appenders : List LogAppenderDefine := []
  deriving DecidableEq

/-- `operator<` -/
def LogDefine.before (a b : LogDefine) : Bool := decide (a.name < b.name)

instance : IsTrans LogDefine fun a b => LogDefine.before a b = true :=
  ⟨fun _ _ _ first second => decide_eq_true (lt_trans (of_decide_eq_true first) (of_decide_eq_true second))⟩

/-- A `std::set<LogDefine>`. -/
abbrev LogDefines := OrderedSet.Elements LogDefine.before

namespace LogDefine

/-- The node of an appender. -/
def appenderNode (a : LogAppenderDefine) : Option Node := do
  let na ← if a.type = 1 then do
      let na ← Node.Null.set "type" (.Scalar "FileLogAppender")
      na.set "file" (.Scalar a.file)
    else if a.type = 2 then Node.Null.set "type" (.Scalar "StdoutLogAppender")
    else some .Null
  let na ← if a.level ≠ .UNKONW then na.set "level" (.Scalar a.level.ToString) else some na
  if a.formatter = "" then some na else na.set "formatter" (.Scalar a.formatter)

/-- `n[key].push_back(item)` -/
def pushUnder (n : Node) (key : String) (item : Node) : Option Node := do
  let items ← (← n.get key).getD .Null |>.push_back item
  n.set key items

/-- The node of a logger. -/
def defineNode (i : LogDefine) : Option Node := do
  let n ← Node.Null.set "name" (.Scalar i.name)
  let n ← n.set "level" (.Scalar i.level.ToString)
  let n ← if i.level ≠ .UNKONW then n.set "level" (.Scalar i.level.ToString) else some n
  let n ← if i.formatter = "" then some n else n.set "formatter" (.Scalar i.formatter)
  i.appenders.foldlM (fun n a => do pushUnder n "appenders" (← appenderNode a)) n

/-- A field that may be missing. -/
def field (n : Node) (key : String) : Option String := do
  match ← n.get key with
  | some text => text.asString
  | none => some ""

/-- An appender, or `none` where it is skipped with a message. -/
def readAppender (a : Node) : Option (Option LogAppenderDefine) := do
  match ← a.get "type" with
  | none => return none
  | some type =>
    let type ← type.asString
    if type = "FileLogAppender" then
      match ← a.get "file" with
      | none => return none
      | some file => return some { type := 1, file := ← file.asString, formatter := ← field a "formatter" }
    else if type = "StdoutLogAppender" then return some { type := 2, formatter := ← field a "formatter" }
    else return none

/-- A logger, or `none` where it is skipped with a message. -/
def readDefine (n : Node) : Option (Option LogDefine) := do
  match ← n.get "name" with
  | none => return none
  | some name =>
    let name ← name.asString
    let level ← field n "level"
    let formatter ← field n "formatter"
    let appenders ← match ← n.get "appenders" with
      | none => pure []
      | some appenders => forEach appenders (fun acc a => do return acc ++ (← readAppender a).toList) []
    return some { name, level := .FromString level, formatter, appenders }

end LogDefine

open LogDefine in
/-- The casts of `std::set<LogDefine>`. -/
def LexicalCast.logDefines (yaml : Cpp) : LexicalCast LogDefines where
  toStr v := do
    let node ← v.elems.foldlM (fun (node : Node) i => do node.push_back (← defineNode i)) .Null
    return yaml.emit node
  fromStr v := do
    let node ← yaml.Load v
    forEach node (fun vec n => do return (← readDefine n).elim vec vec.insert) .empty
  equal a b := a = b

namespace LogDefine

/-- The appenders that the configuration can name: to a file, or to the standard output and without one. -/
def Named (a : LogAppenderDefine) : Prop := a.type = 1 ∨ a.type = 2 ∧ a.file = ""

/-- What the decoder leaves of a logger: it does not look at the level of an appender. -/
def forget (i : LogDefine) : LogDefine :=
  { i with appenders := i.appenders.map fun a => { a with level := .UNKONW } }

section Entries
variable {key : String} {base : List (String × Node)}

theorem lookup_absent (absent : key ∉ base.map Prod.fst) : base.lookup key = none := by
  rw [List.lookup_eq_none_iff]
  intro entry member
  simp only [bne_iff_ne]
  exact fun same => absent (same ▸ List.mem_map_of_mem member)

/-- The entry that is left out when there is no text for it. -/
def optional (key text : String) : List (String × Node) := if text = "" then [] else [(key, .Scalar text)]

theorem set_optional (absent : key ∉ base.map Prod.fst) (text : String) :
    (if text = "" then some (.Map base) else (Node.Map base).set key (.Scalar text)) =
      some (.Map (base ++ optional key text)) := by
  by_cases empty : text = ""
  · rw [if_pos empty, optional, if_pos empty, List.append_nil]
  · rw [if_neg empty, optional, if_neg empty, Node.set, Node.assign_of_absent absent]

/-- An entry that is left out is read as the empty text. -/
theorem field_optional (absent : key ∉ base.map Prod.fst) (text : String) :
    field (.Map (base ++ optional key text)) key = some text := by
  by_cases empty : text = ""
  · simp [field, Node.get, optional, lookup_absent absent, empty]
  · simp [field, Node.get, optional, List.lookup_append, lookup_absent absent, Node.asString, empty]

/-- What an appender has besides its type and its file. -/
theorem set_options (base : List (String × Node)) (absentL : "level" ∉ base.map Prod.fst)
    (absentF : "formatter" ∉ base.map Prod.fst) (level : LogLevel) (formatter : String) : ∃ leveled,
    (do let na ← if level ≠ .UNKONW then (Node.Map base).set "level" (.Scalar level.ToString) else some (.Map base)
        if formatter = "" then some na else na.set "formatter" (.Scalar formatter)) =
      some (.Map (base ++ leveled ++ optional "formatter" formatter)) ∧
    "formatter" ∉ (base ++ leveled).map Prod.fst := by
  by_cases unknown : level = .UNKONW
  · have absent : "formatter" ∉ (base ++ []).map Prod.fst := by rwa [List.append_nil]
    refine ⟨[], ?_, absent⟩
    rw [← set_optional absent, List.append_nil]
    simp [unknown]
  · have absent : "formatter" ∉ (base ++ [("level", Node.Scalar level.ToString)]).map Prod.fst := by
      rw [List.map_append, List.mem_append, not_or]
      exact ⟨absentF, by simp⟩
    refine ⟨_, ?_, absent⟩
    rw [← set_optional absent]
    simp [unknown, Node.set, Node.assign_of_absent absentL]

theorem read_appenderNode {a : LogAppenderDefine} (named : Named a) :
    ∃ na, appenderNode a = some na ∧ readAppender na = some (some { a with level := .UNKONW }) := by
  obtain ⟨type, level, formatter, file⟩ := a
  rcases named with rfl | ⟨rfl, rfl⟩
  · obtain ⟨leveled, made, absent⟩ := set_options [("type", .Scalar "FileLogAppender"),
      ("file", .Scalar file)] (by simp) (by simp) level formatter
    refine ⟨_, made, ?_⟩
    have read := field_optional absent formatter
    simp only [List.cons_append, List.nil_append] at read ⊢
    simp [readAppender, Node.get, Node.asString, List.lookup, read]
  · obtain ⟨leveled, made, absent⟩ := set_options [("type", .Scalar "StdoutLogAppender")]
      (by simp) (by simp) level formatter
    refine ⟨_, made, ?_⟩
    have read := field_optional absent formatter
    simp only [List.cons_append, List.nil_append] at read ⊢
    simp [readAppender, Node.get, Node.asString, List.lookup, read]

/-- The first item makes the entry. -/
theorem pushUnder_first (absent : key ∉ base.map Prod.fst) (item : Node) :
    pushUnder (.Map base) key item = some (.Map (base ++ [(key, Node.Sequence [item])])) := by
  simp [pushUnder, Node.get, lookup_absent absent, Node.push_back, Node.set, Node.assign_of_absent absent]

theorem assign_last (absent : key ∉ base.map Prod.fst) (old new : Node) :
    Node.assign key new (base ++ [(key, old)]) = base ++ [(key, new)] := by
  induction base with
  | nil => simp [Node.assign]
  | cons entry base ih =>
    rw [List.map_cons, List.mem_cons, not_or] at absent
    rw [List.cons_append, Node.assign, if_neg (Ne.symm absent.1), ih absent.2, List.cons_append]

/-- The other items join it. -/
theorem pushUnder_next (absent : key ∉ base.map Prod.fst) (items : List Node) (item : Node) :
    pushUnder (.Map (base ++ [(key, Node.Sequence items)])) key item =
      some (.Map (base ++ [(key, Node.Sequence (items ++ [item]))])) := by
  simp [pushUnder, Node.get, List.lookup_append, lookup_absent absent, Node.push_back, Node.set, assign_last absent]

/-- The loop over the appenders, after the first of them. -/
theorem foldlM_pushUnder (absent : "appenders" ∉ base.map Prod.fst) {appenders : List LogAppenderDefine}
    {nodes acc : List Node} (made : List.Forall₂ (fun a na => appenderNode a = some na) appenders nodes) :
    appenders.foldlM (fun n a => do pushUnder n "appenders" (← appenderNode a))
        (.Map (base ++ [("appenders", Node.Sequence acc)])) =
      some (.Map (base ++ [("appenders", Node.Sequence (acc ++ nodes))])) := by
  induction made generalizing acc with
  | nil => rw [List.append_nil]; rfl
  | @cons a na appenders nodes first _ ih =>
    have pushed := pushUnder_next absent acc na
    rw [List.foldlM_cons, first, Option.bind_eq_bind, Option.bind_some, pushed]
    exact (@ih (acc ++ [na])).trans (by rw [List.append_assoc, List.singleton_append])

end Entries

/-- The entries of a logger without its appenders. -/
def base (i : LogDefine) : List (String × Node) :=
  [("name", .Scalar i.name), ("level", .Scalar i.level.ToString)] ++
    if i.formatter = "" then [] else [("formatter", .Scalar i.formatter)]

theorem base_absent (i : LogDefine) : "appenders" ∉ i.base.map Prod.fst := by
  unfold base
  split <;> simp

theorem defineNode_eq {i : LogDefine} {nodes : List Node}
    (made : List.Forall₂ (fun a na => appenderNode a = some na) i.appenders nodes) :
    defineNode i = some (.Map (i.base ++ if nodes = [] then [] else [("appenders", Node.Sequence nodes)])) := by
  have start : defineNode i =
      i.appenders.foldlM (fun n a => do pushUnder n "appenders" (← appenderNode a)) (.Map i.base) := by
    by_cases leveled : i.level = .UNKONW <;> by_cases formatted : i.formatter = "" <;>
      simp [defineNode, base, Node.set, Node.assign, leveled, formatted]
  rw [start]
  generalize i.appenders = appenders at made
  cases made with
  | nil => simp
  | @cons a na appenders nodes first others =>
    rw [List.foldlM_cons, first, Option.bind_eq_bind, Option.bind_some, pushUnder_first i.base_absent]
    exact foldlM_pushUnder i.base_absent others

/-- The nodes of the appenders, and what is read from each of them. -/
theorem exists_nodes {appenders : List LogAppenderDefine} (named : ∀ a ∈ appenders, Named a) :
    ∃ nodes, List.Forall₂ (fun a na => appenderNode a = some na) appenders nodes ∧
      List.Forall₂ (fun na w => ∀ acc : List LogAppenderDefine,
          (do return acc ++ (← readAppender na).toList) = some (acc ++ [w]))
        nodes (appenders.map fun a => { a with level := .UNKONW }) := by
  induction appenders with
  | nil => exact ⟨[], .nil, .nil⟩
  | cons a appenders ih =>
    obtain ⟨na, made, read⟩ := read_appenderNode (named a List.mem_cons_self)
    obtain ⟨nodes, others, reads⟩ := ih fun b member => named b (List.mem_cons_of_mem _ member)
    exact ⟨na :: nodes, .cons made others, .cons (fun acc => by simp [read]) reads⟩

/-- A logger is read back without the levels of its appenders. -/
theorem read_defineNode {i : LogDefine} (named : ∀ a ∈ i.appenders, Named a) (level : i.level ≠ .hundred) :
    ∃ n, defineNode i = some n ∧ readDefine n = some (some i.forget) := by
  obtain ⟨nodes, made, reads⟩ := exists_nodes named
  refine ⟨_, defineNode_eq made, ?_⟩
  have leveled : LogLevel.FromString i.level.ToString = i.level := by
    rw [LogLevel.FromString_ToString, if_neg level]
  have loop : forEach (.Sequence nodes) (fun acc a => (readAppender a).bind fun lad => some (acc ++ lad.toList)) [] =
      some (i.appenders.map fun a => { a with level := .UNKONW }) := by
    rw [Node.Holds.sequence.forEach]
    refine (foldlM_insert reads []).trans ?_
    rw [LexicalCast.foldl_push]
    rfl
  by_cases none : nodes = []
  · subst none
    have empty : i.appenders = [] := List.forall₂_nil_right_iff.mp made
    by_cases formatted : i.formatter = "" <;>
      simp [readDefine, base, Node.get, field, Node.asString, List.lookup, formatted, leveled, forget, empty]
  · by_cases formatted : i.formatter = "" <;>
      simp [readDefine, base, Node.get, field, Node.asString, List.lookup, formatted, none, leveled, loop, forget]

end LogDefine

namespace LogDefines
open LogDefine

/-- Loggers with a level from `UNKONW` to `FATAL` and with appenders that can be named. -/
def Named (v : LogDefines) : Prop := ∀ i ∈ v.elems, i.level ≠ .hundred ∧ ∀ a ∈ i.appenders, LogDefine.Named a

/-- A set of loggers without the levels of the appenders. -/
def forget (v : LogDefines) : LogDefines where
  elems := v.elems.map LogDefine.forget
  sorted := List.pairwise_map.mpr v.sorted

theorem forget_eq_iff (v : LogDefines) :
    v.forget = v ↔ ∀ i ∈ v.elems, ∀ a ∈ i.appenders, a.level = .UNKONW := by
  have elems : v.forget = v ↔ v.elems.map LogDefine.forget = v.elems.map id := by
    rw [OrderedSet.Elements.ext_iff, List.map_id]
    rfl
  rw [elems, List.map_inj_left]
  refine forall₂_congr fun i _ => ?_
  have appenders : i.forget = i ↔ (i.appenders.map fun a => { a with level := .UNKONW }) = i.appenders.map id := by
    rw [List.map_id]
    exact ⟨congrArg LogDefine.appenders, fun same => by rw [LogDefine.forget, same]⟩
  rw [id, appenders, List.map_inj_left]
  refine forall₂_congr fun a _ => ?_
  exact ⟨fun same => congrArg LogAppenderDefine.level same.symm, fun level => by rw [← level]; rfl⟩

/-- The nodes of the loggers, and what is read from each of them. -/
theorem exists_nodes {elems : List LogDefine}
    (named : ∀ i ∈ elems, i.level ≠ .hundred ∧ ∀ a ∈ i.appenders, LogDefine.Named a) :
    ∃ nodes, List.Forall₂ (fun i n => ∀ node : Node, (do node.push_back (← defineNode i)) = node.push_back n)
        elems nodes ∧
      List.Forall₂
        (fun n w => ∀ vec : LogDefines, (do return (← readDefine n).elim vec vec.insert) = some (vec.insert w))
        nodes (elems.map LogDefine.forget) := by
  induction elems with
  | nil => exact ⟨[], .nil, .nil⟩
  | cons i elems ih =>
    obtain ⟨level, appenders⟩ := named i List.mem_cons_self
    obtain ⟨n, made, read⟩ := read_defineNode appenders level
    obtain ⟨nodes, others, reads⟩ := ih fun j member => named j (List.mem_cons_of_mem _ member)
    exact ⟨n :: nodes, .cons (fun node => by simp [made]) others, .cons (fun vec => by simp [read]) reads⟩

variable {yaml : Cpp} {v : LogDefines}

theorem fromStr_toStr_forget (inverse : yaml.Inverse) (named : v.Named) :
    (LexicalCast.logDefines yaml).toStr v >>= (LexicalCast.logDefines yaml).fromStr = some v.forget := by
  obtain ⟨nodes, pushes, inserts⟩ := exists_nodes named
  obtain ⟨node, pushed, holds⟩ := foldlM_push_back_null pushes
  have written : (LexicalCast.logDefines yaml).toStr v = some (yaml.emit node) := by
    simp only [LexicalCast.logDefines, pushed]
    rfl
  have read : (LexicalCast.logDefines yaml).fromStr (yaml.emit node) =
      some ((v.elems.map LogDefine.forget).foldl OrderedSet.Elements.insert .empty) := by
    simp only [LexicalCast.logDefines, inverse node]
    exact (holds.forEach _ _).trans (foldlM_insert inserts _)
  have rebuilt : (v.elems.map LogDefine.forget).foldl OrderedSet.Elements.insert .empty = v.forget :=
    OrderedSet.Elements.ext (OrderedSet.Elements.foldl_insert .empty v.forget.sorted)
  rw [written, Option.bind_eq_bind, Option.bind_some, read, rebuilt]

/-- A set of loggers is read back from its text if and only if no appender has a level. -/
theorem fromStr_toStr_iff (inverse : yaml.Inverse) (named : v.Named) :
    (LexicalCast.logDefines yaml).toStr v >>= (LexicalCast.logDefines yaml).fromStr = some v ↔
      ∀ i ∈ v.elems, ∀ a ∈ i.appenders, a.level = .UNKONW := by
  rw [fromStr_toStr_forget inverse named, ← forget_eq_iff]
  exact ⟨Option.some.inj, congrArg some⟩

/-- The root logger with an appender to the standard output, without a level and with one. -/
def rootNode (appender : List (String × Node)) : Node :=
  .Sequence [.Map [("name", .Scalar "root"), ("level", .Scalar "DEBUG"),
    ("appenders", .Sequence [.Map (("type", .Scalar "StdoutLogAppender") :: appender)])]]

def rootText : String := "- name: root\n  level: DEBUG\n  appenders:\n    - type: StdoutLogAppender"

def rootTexts : Texts where
  written
    | .Sequence [.Map [("name", .Scalar "root"), ("level", .Scalar "DEBUG"),
        ("appenders", .Sequence [.Map [("type", .Scalar "StdoutLogAppender")]])]] => some rootText
    | .Sequence [.Map [("name", .Scalar "root"), ("level", .Scalar "DEBUG"),
        ("appenders", .Sequence [.Map [("type", .Scalar "StdoutLogAppender"), ("level", .Scalar "ERROR")]])]] =>
      some (rootText ++ "\n      level: ERROR")
    | _ => none
  read text :=
    if text = rootText then some (rootNode [])
    else if text = rootText ++ "\n      level: ERROR" then some (rootNode [("level", .Scalar "ERROR")])
    else none
  reads := by
    intro n text written
    split at written
    · cases written
      rfl
    · cases written
      rfl
    · cases written
  apart text := by
    rw [if_neg (Texts.coded_ne (by decide)), if_neg (Texts.coded_ne (by decide))]

def rootDefine (level : LogLevel) : LogDefines where
  elems := [{ name := "root", level := .DEBUG, appenders := [{ type := 2, level }] }]
  sorted := List.pairwise_singleton _ _

theorem named_rootDefine (level : LogLevel) : (rootDefine level).Named := by
  intro i member
  cases List.mem_singleton.mp member
  refine ⟨nofun, fun a attached => ?_⟩
  cases List.mem_singleton.mp attached
  exact .inr ⟨rfl, rfl⟩

theorem fromStr_toStr_root : (LexicalCast.logDefines rootTexts.cpp).toStr (rootDefine .UNKONW) >>=
    (LexicalCast.logDefines rootTexts.cpp).fromStr = some (rootDefine .UNKONW) := by
  refine (fromStr_toStr_iff rootTexts.inverse (named_rootDefine .UNKONW)).mpr fun i member a attached => ?_
  cases List.mem_singleton.mp member
  cases List.mem_singleton.mp attached
  rfl

/-- The level of the appender is lost. -/
theorem not_fromStr_toStr_leveled : (LexicalCast.logDefines rootTexts.cpp).toStr (rootDefine .ERROR) >>=
    (LexicalCast.logDefines rootTexts.cpp).fromStr ≠ some (rootDefine .ERROR) := by
  rw [fromStr_toStr_forget rootTexts.inverse (named_rootDefine .ERROR)]
  intro same
  have elems : (rootDefine .ERROR).forget.elems = (rootDefine .ERROR).elems :=
    congrArg OrderedSet.Elements.elems (Option.some.inj same)
  exact absurd elems (by decide)

end LogDefines
end Sylar
