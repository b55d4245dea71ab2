import Mathlib.Data.Nat.Basic
import Mathlib.Logic.Function.Basic
import Mathlib.Order.Lattice
import Sylar.Lib.Machine
import Sylar.Lib.OrderedMap

/-! The listeners of the `ConfigVar`s of one type: they share the number of the next listener, which no lock guards. -/

namespace Sylar
open Machine

/-- The order of the keys of a `std::map<uint64_t, on_change_cb>`. -/
local instance keyOrder : LinearOrder UInt64 where
  le := (· ≤ ·)
  lt := (· < ·)
  le_refl := UInt64.le_refl
  le_trans _ _ _ := UInt64.le_trans
  le_antisymm _ _ := UInt64.le_antisymm
  le_total := UInt64.le_total
  lt_iff_le_not_ge _ _ := Std.lt_iff_le_and_not_ge
  toDecidableLE := inferInstance
  toDecidableLT := inferInstance
  toDecidableEq := inferInstance

variable {T : Type}

/-- An `on_change_cb`. -/
abbrev ListenerCb := Nat

structure ListenedVar (T : Type) where
  m_val : T
  m_cbs : OrderedMap UInt64 ListenerCb := .empty

/-- Where a thread is in `addListener` of the variable `x`, under its write lock, or in `setValue(v)`, which has found
the value `old`. -/
inductive Listening (T : Type)
  | idle
  | loads (x : Nat) (cb : ListenerCb)
  | stores (x : Nat) (cb : ListenerCb) (n : UInt64)
  | inserts (x : Nat) (cb : ListenerCb)
  | returns (x : Nat) (cb : ListenerCb)
  | notifies (x : Nat) (v old : T) (rest : List (UInt64 × ListenerCb))
  | assigns (x : Nat) (v : T)

namespace Listening

/-- The variable whose write lock the thread has. -/
def adds : Listening T → Option Nat
  | .loads x _ | .stores x _ _ | .inserts x _ | .returns x _ => some x
  | _ => none

/-- The variable whose read lock the thread has. -/
def reads : Listening T → Option Nat
  | .notifies x _ _ _ => some x
  | _ => none

end Listening

structure ListenedVars (T : Type) where
  s_dun_id : UInt64 := 0
  var : Nat → ListenedVar T
  thread : Nat → Listening T := fun _ => .idle

namespace ListenedVars

inductive Act (T : Type)
  | addListener (x : Nat) (cb : ListenerCb)
  | load
  | store
  | insert
  | returns (x : Nat) (cb : ListenerCb) (key : UInt64)
  | delListener (x : Nat) (key : UInt64)
  | clearListener (x : Nat)
  | setValue (x : Nat) (v : T)
  | notify (key : UInt64) (cb : ListenerCb)
  | unlock
  | assign

variable {s t : ListenedVars T} {w x : Nat}

def at_ (s : ListenedVars T) (w : Nat) (pc : Listening T) : ListenedVars T :=
  { s with thread := Function.update s.thread w pc }

def setCbs (s : ListenedVars T) (x : Nat) (m_cbs : OrderedMap UInt64 ListenerCb) : ListenedVars T :=
  { s with var := Function.update s.var x { s.var x with m_cbs } }

def getListener (s : ListenedVars T) (x : Nat) (key : UInt64) : Option ListenerCb := (s.var x).m_cbs.find key

/-- `++s_dun_id`, `m_cbs[s_dun_id]` and `return s_dun_id` each read the number anew, and a listener is called with what
`m_val` is then. -/
def act [BEq T] (s : ListenedVars T) (w : Nat) (a : Act T) : Option (ListenedVars T) :=
  match a, s.thread w with
  | .addListener x cb, .idle => some (s.at_ w (.loads x cb))
  | .load, .loads x cb => some (s.at_ w (.stores x cb s.s_dun_id))
  | .store, .stores x cb n => some ({ s with s_dun_id := n + 1 }.at_ w (.inserts x cb))
  | .insert, .inserts x cb => some ((s.setCbs x ((s.var x).m_cbs.set s.s_dun_id cb)).at_ w (.returns x cb))
  | .returns y d key, .returns x cb => if y = x ∧ d = cb ∧ key = s.s_dun_id then some (s.at_ w .idle) else none
  | .delListener x key, .idle => some (s.setCbs x ((s.var x).m_cbs.erase key))
  | .clearListener x, .idle => some (s.setCbs x .empty)
  | .setValue x v, .idle =>
    if v == (s.var x).m_val then some s
    else some (s.at_ w (.notifies x v (s.var x).m_val (s.var x).m_cbs.entries))
  | .notify key cb, .notifies x v old (e :: rest) =>
    if e = (key, cb) then some (s.at_ w (.notifies x v old rest)) else none
  | .unlock, .notifies x v _ [] => some (s.at_ w (.assigns x v))
  | .assign, .assigns x v =>
    some ({ s with var := Function.update s.var x { s.var x with m_val := v } }.at_ w .idle)
  | _, _ => none

/-- Nobody has the read or the write lock of the variable. -/
def Free (s : ListenedVars T) (x : Nat) : Prop := ∀ w, (s.thread w).adds ≠ some x ∧ (s.thread w).reads ≠ some x

/-- What a step waits for. `clearListener` takes no lock. -/
def Locks (s : ListenedVars T) (w : Nat) : Act T → Prop
  | .addListener x _ | .delListener x _ => s.Free x
  | .setValue x _ => ∀ u, (s.thread u).adds ≠ some x
  | .assign => ∀ x v, s.thread w = .assigns x v → s.Free x
  | _ => True

def Step [BEq T] (s : ListenedVars T) (l : Nat × Act T) (t : ListenedVars T) : Prop :=
  s.Locks l.1 l.2 ∧ s.act l.1 l.2 = some t

/-- No two calls of `addListener` are under way, even for different variables, and nobody is in the map that
`clearListener` empties. -/
def Apart (s : ListenedVars T) (l : Nat × Act T) (_ : ListenedVars T) : Prop :=
  match l.2 with
  | .addListener _ _ => ∀ u, (s.thread u).adds = none
  | .clearListener x => s.Free x
  | _ => True

/-- The listeners of a variable as the callers know them. -/
def known (ls : List (Nat × Act T)) (x : Nat) (key : UInt64) : Option ListenerCb :=
  ls.foldl (fun cb l => match l.2 with
    | .returns y d k => if y = x ∧ k = key then some d else cb
    | .delListener y k => if y = x ∧ k = key then none else cb
    | .clearListener y => if y = x then none else cb
    | _ => cb) none

/-- The keys that `addListener` has returned, for any variable. -/
def returned (ls : List (Nat × Act T)) : List UInt64 :=
  ls.filterMap fun l => match l.2 with
    | .returns _ _ key => some key
    | _ => none

/-- How often the number has been increased. -/
def increments (ls : List (Nat × Act T)) : Nat :=
  ls.countP fun l => match l.2 with
    | .store => true
    | _ => false

/-- The listeners that the thread has called since its last `setValue`. -/
def told (ls : List (Nat × Act T)) (w : Nat) : List (UInt64 × ListenerCb) :=
  ls.foldl (fun told l => if l.1 = w then match l.2 with
    | .setValue _ _ => []
    | .notify key cb => told ++ [(key, cb)]
    | _ => told
  else told) []

theorem known_concat (ls : List (Nat × Act T)) (l : Nat × Act T) (x : Nat) (key : UInt64) :
    known (ls ++ [l]) x key = match l.2 with
      | .returns y d k => if y = x ∧ k = key then some d else known ls x key
      | .delListener y k => if y = x ∧ k = key then none else known ls x key
      | .clearListener y => if y = x then none else known ls x key
      | _ => known ls x key := by
  rw [known, List.foldl_append]
  rfl

theorem told_concat (ls : List (Nat × Act T)) (l : Nat × Act T) (w : Nat) :
    told (ls ++ [l]) w = if l.1 = w then match l.2 with
      | .setValue _ _ => []
      | .notify key cb => told ls w ++ [(key, cb)]
      | _ => told ls w
    else told ls w := by
  rw [told, List.foldl_append]
  rfl

theorem increments_concat (ls : List (Nat × Act T)) (l : Nat × Act T) : increments ls ≤ increments (ls ++ [l]) := by
  rw [increments, increments, List.countP_append]
  exact Nat.le_add_right ..

/-- A step that no key comes from or goes by. -/
def Silent : Act T → Prop
  | .store | .returns .. | .delListener .. | .clearListener _ => False
  | _ => True

theorem Silent.known {ls : List (Nat × Act T)} {a : Act T} (silent : Silent a) (y : Nat) (key : UInt64) :
    known (ls ++ [(w, a)]) y key = known ls y key := by
  rw [known_concat]
  cases a with
  | store | returns | delListener | clearListener => exact silent.elim
  | _ => rfl

theorem Silent.returned {ls : List (Nat × Act T)} {a : Act T} (silent : Silent a) :
    returned (ls ++ [(w, a)]) = returned ls := by
  cases a with
  | store | returns | delListener | clearListener => exact silent.elim
  | _ => simp [ListenedVars.returned]

theorem Silent.increments {ls : List (Nat × Act T)} {a : Act T} (silent : Silent a) :
    increments (ls ++ [(w, a)]) = increments ls := by
  cases a with
  | store | returns | delListener | clearListener => exact silent.elim
  | _ => simp [ListenedVars.increments]

theorem thread_at_self {pc : Listening T} : (s.at_ w pc).thread w = pc := Function.update_self ..

theorem thread_at_of_ne {u : Nat} {pc : Listening T} (other : u ≠ w) : (s.at_ w pc).thread u = s.thread u :=
  Function.update_of_ne other ..

theorem find_setCbs {m_cbs : OrderedMap UInt64 ListenerCb} (y : Nat) (key : UInt64) :
    ((s.setCbs x m_cbs).var y).m_cbs.find key = if y = x then m_cbs.find key else (s.var y).m_cbs.find key := by
  by_cases here : y = x
  · rw [if_pos here, here]
    simp [setCbs]
  · rw [if_neg here]
    simp [setCbs, here]

/-- One call of `addListener` at a time, and nobody reads a map that is written. -/
structure Locked (thread : Nat → Listening T) : Prop where
  one : ∀ u w, (thread u).adds ≠ none → (thread w).adds ≠ none → u = w
  lock : ∀ u w x, (thread u).adds = some x → (thread w).reads ≠ some x

theorem Locked.at_ {pc : Listening T} (locked : Locked s.thread)
    (adds : ∀ x, pc.adds = some x → (s.thread w).adds = some x ∨ (∀ u, (s.thread u).adds = none) ∧ s.Free x)
    (reads : ∀ x, pc.reads = some x → (s.thread w).reads = some x ∨ ∀ u, (s.thread u).adds ≠ some x)
    (apart : pc.adds = none ∨ pc.reads = none) : Locked (s.at_ w pc).thread where
  one u v first second := by
    by_cases hereU : u = w
    · by_cases hereV : v = w
      · rw [hereU, hereV]
      · rw [hereU, thread_at_self] at first
        rw [thread_at_of_ne hereV] at second
        obtain ⟨x, some⟩ := Option.ne_none_iff_exists'.mp first
        rcases adds x some with before | ⟨none, -⟩
        · rw [hereU]
          exact locked.one w v (before ▸ Option.some_ne_none x) second
        · exact absurd (none v) second
    · rw [thread_at_of_ne hereU] at first
      by_cases hereV : v = w
      · rw [hereV, thread_at_self] at second
        obtain ⟨x, some⟩ := Option.ne_none_iff_exists'.mp second
        rcases adds x some with before | ⟨none, -⟩
        · rw [hereV]
          exact locked.one u w first (before ▸ Option.some_ne_none x)
        · exact absurd (none u) first
      · rw [thread_at_of_ne hereV] at second
        exact locked.one u v first second
  lock u v x first second := by
    by_cases hereU : u = w
    · rw [hereU, thread_at_self] at first
      by_cases hereV : v = w
      · rw [hereV, thread_at_self] at second
        rcases apart with none | none
        · cases none.symm.trans first
        · cases none.symm.trans second
      · rw [thread_at_of_ne hereV] at second
        rcases adds x first with before | ⟨-, free⟩
        · exact locked.lock w v x before second
        · exact (free v).2 second
    · rw [thread_at_of_ne hereU] at first
      by_cases hereV : v = w
      · rw [hereV, thread_at_self] at second
        rcases reads x second with before | none
        · exact locked.lock u w x first before
        · exact none u first
      · rw [thread_at_of_ne hereV] at second
        exact locked.lock u v x first second

/-- A key that has been returned or is in one of the maps. -/
def Used (ls : List (Nat × Act T)) (s : ListenedVars T) (key : UInt64) : Prop :=
  key ∈ returned ls ∨ ∃ x cb, (s.var x).m_cbs.find key = some cb

/-- What the shared number says of the keys. -/
structure Numbered (ls : List (Nat × Act T)) (s : ListenedVars T) : Prop where
  number : s.s_dun_id.toNat = increments ls
  bound : ∀ key, Used ls s key → key ≤ s.s_dun_id
  stores : ∀ w x cb n, s.thread w = .stores x cb n → n = s.s_dun_id
  inserts : ∀ w x cb, s.thread w = .inserts x cb → ∀ key, Used ls s key → key < s.s_dun_id
  returns : ∀ w x cb, s.thread w = .returns x cb →
    (s.var x).m_cbs.find s.s_dun_id = some cb ∧ ∀ key ∈ returned ls, key < s.s_dun_id
  increasing : (returned ls).Pairwise (· < ·)
  agrees : ∀ x key, (∀ w cb, s.thread w = .returns x cb → key ≠ s.s_dun_id) →
    (s.var x).m_cbs.find key = known ls x key

variable {ls : List (Nat × Act T)} {a : Act T}

/-- A step that leaves the maps and the number alone, and does not come to where they matter. -/
theorem Numbered.at_ {pc : Listening T} (numbered : Numbered ls s)
    (cbs : ∀ y key, (t.var y).m_cbs.find key = (s.var y).m_cbs.find key) (number : t.s_dun_id = s.s_dun_id)
    (thread : t.thread = (s.at_ w pc).thread) (before : ∀ x cb, s.thread w ≠ .returns x cb)
    (after : ∀ x cb n, pc = .stores x cb n → n = s.s_dun_id) (inserts : ∀ x cb, pc ≠ .inserts x cb)
    (returns : ∀ x cb, pc ≠ .returns x cb) (silent : Silent a) : Numbered (ls ++ [(w, a)]) t := by
  have used : ∀ key, Used (ls ++ [(w, a)]) t key ↔ Used ls s key := by
    intro key
    simp only [Used, silent.returned, cbs]
  have same : ∀ u, u ≠ w → t.thread u = s.thread u := fun u other => thread ▸ thread_at_of_ne other
  have mine : t.thread w = pc := thread ▸ thread_at_self
  refine ⟨?_, fun key old => ?_, fun u x cb n at_ => ?_, fun u x cb at_ key old => ?_, fun u x cb at_ => ?_, ?_,
    fun x key free => ?_⟩
  · rw [number, silent.increments]
    exact numbered.number
  · rw [number]
    exact numbered.bound key ((used key).mp old)
  · rw [number]
    by_cases here : u = w
    · exact after x cb n (mine.symm.trans (here ▸ at_))
    · exact numbered.stores u x cb n ((same u here).symm.trans at_)
  · rw [number]
    by_cases here : u = w
    · exact absurd (mine.symm.trans (here ▸ at_)) (inserts x cb)
    · exact numbered.inserts u x cb ((same u here).symm.trans at_) key ((used key).mp old)
  · rw [number, cbs, silent.returned]
    by_cases here : u = w
    · exact absurd (mine.symm.trans (here ▸ at_)) (returns x cb)
    · exact numbered.returns u x cb ((same u here).symm.trans at_)
  · rw [silent.returned]
    exact numbered.increasing
  · rw [cbs, silent.known]
    refine numbered.agrees x key fun u cb at_ => ?_
    rw [← number]
    refine free u cb ?_
    by_cases here : u = w
    · exact absurd (here ▸ at_) (before x cb)
    · exact (same u here).trans at_

/-- The thread that is in `addListener` is the only one. -/
theorem Locked.alone (locked : Locked s.thread) {u : Nat} (mine : (s.thread w).adds ≠ none) (other : u ≠ w) :
    (s.thread u).adds = none := by
  by_contra adds
  exact other (locked.one u w adds mine)

theorem lt_add_one {key n : UInt64} (le : key ≤ n) (fits : n.toNat + 1 < UInt64.size) : key < n + 1 := by
  rw [UInt64.lt_iff_toNat_lt, UInt64.toNat_add]
  refine Nat.lt_of_le_of_lt (UInt64.le_iff_toNat_le.mp le) ?_
  exact (Nat.mod_eq_of_lt fits).symm ▸ Nat.lt_succ_self _

/-- Below its last value, `++s_dun_id` is above every key there is. -/
theorem Numbered.store {cb : ListenerCb} {n : UInt64} (numbered : Numbered ls s) (locked : Locked s.thread)
    (pc : s.thread w = .stores x cb n) (few : increments (ls ++ [(w, .store)]) < UInt64.size) :
    Numbered (ls ++ [(w, .store)]) ({ s with s_dun_id := n + 1 }.at_ w (.inserts x cb)) := by
  have number : n = s.s_dun_id := numbered.stores w x cb n pc
  have adding : (s.thread w).adds ≠ none := by
    rw [pc]
    exact Option.some_ne_none x
  have labels : returned (ls ++ [(w, .store)]) = returned ls := by simp [returned]
  have count : increments (ls ++ [(w, .store)]) = n.toNat + 1 := by
    rw [number, numbered.number]
    simp [increments]
  have fits : n.toNat + 1 < UInt64.size := count ▸ few
  have others : ∀ u,
      (({ s with s_dun_id := n + 1 } : ListenedVars T).at_ w (.inserts x cb)).thread u = .inserts x cb ∧ u = w ∨
      ((({ s with s_dun_id := n + 1 } : ListenedVars T).at_ w (.inserts x cb)).thread u).adds = none := by
    intro u
    by_cases here : u = w
    · exact .inl ⟨by rw [here, thread_at_self], here⟩
    · rw [thread_at_of_ne here]
      exact .inr (locked.alone adding here)
  have old : ∀ key, Used (ls ++ [(w, .store)]) ({ s with s_dun_id := n + 1 }.at_ w (.inserts x cb)) key → key ≤ n := by
    rintro key (inLabels | inMaps)
    · rw [labels] at inLabels
      exact number ▸ numbered.bound key (.inl inLabels)
    · exact number ▸ numbered.bound key (.inr inMaps)
  refine ⟨?_, fun key used => (lt_add_one (old key used) fits).le, fun u y d m at_ => ?_, fun _ _ _ _ key used => ?_,
    fun u y d at_ => ?_, labels ▸ numbered.increasing, fun y key _ => ?_⟩
  · rw [count]
    exact (UInt64.toNat_add n 1).trans (Nat.mod_eq_of_lt fits)
  · rcases others u with ⟨here, -⟩ | none
    · cases at_.symm.trans here
    · rw [at_] at none
      cases none
  · exact lt_add_one (old key used) fits
  · rcases others u with ⟨here, -⟩ | none
    · cases at_.symm.trans here
    · rw [at_] at none
      cases none
  · rw [known_concat]
    refine numbered.agrees y key fun u d at_ => ?_
    have here := locked.one u w (by rw [at_]; exact Option.some_ne_none y) adding
    rw [here, pc] at at_
    cases at_

theorem Numbered.insert {cb : ListenerCb} (numbered : Numbered ls s) (locked : Locked s.thread)
    (pc : s.thread w = .inserts x cb) :
    Numbered (ls ++ [(w, .insert)]) ((s.setCbs x ((s.var x).m_cbs.set s.s_dun_id cb)).at_ w (.returns x cb)) := by
  have adding : (s.thread w).adds ≠ none := by
    rw [pc]
    exact Option.some_ne_none x
  have silent : Silent (.insert : Act T) := trivial
  have labels : returned (ls ++ [(w, .insert)]) = returned ls := silent.returned
  have find : ∀ y key, (((s.setCbs x ((s.var x).m_cbs.set s.s_dun_id cb)).at_ w (.returns x cb)).var y).m_cbs.find key =
      if y = x then ((s.var x).m_cbs.set s.s_dun_id cb).find key else (s.var y).m_cbs.find key := find_setCbs
  have others : ∀ u, u ≠ w → ((s.thread u).adds) = none := fun u => locked.alone adding
  refine ⟨silent.increments.symm ▸ numbered.number, fun key used => ?_, fun u y d m at_ => ?_, fun u y d at_ => ?_,
    fun u y d at_ => ?_, labels ▸ numbered.increasing, fun y key free => ?_⟩
  · rcases used with inLabels | ⟨y, d, found⟩
    · rw [labels] at inLabels
      exact numbered.bound key (.inl inLabels)
    · rw [find] at found
      by_cases same : key = s.s_dun_id
      · exact same.le
      · rw [OrderedMap.find_set_of_ne same] at found
        split at found
        · exact numbered.bound key (.inr ⟨x, d, found⟩)
        · exact numbered.bound key (.inr ⟨y, d, found⟩)
  · by_cases here : u = w
    · rw [here, thread_at_self] at at_
      cases at_
    · rw [thread_at_of_ne here] at at_
      exact numbered.stores u y d m at_
  · by_cases here : u = w
    · rw [here, thread_at_self] at at_
      cases at_
    · rw [thread_at_of_ne here] at at_
      have none := others u here
      rw [show s.thread u = .inserts y d from at_] at none
      cases none
  · by_cases here : u = w
    · rw [here, thread_at_self] at at_
      cases at_
      rw [find, if_pos rfl, labels]
      exact ⟨OrderedMap.find_set_self, fun key used => numbered.inserts w x cb pc key (.inl used)⟩
    · rw [thread_at_of_ne here] at at_
      have none := others u here
      rw [show s.thread u = .returns y d from at_] at none
      cases none
  · have elsewhere : y = x → key ≠ s.s_dun_id := by
      rintro rfl
      exact free w cb thread_at_self
    rw [find, known_concat]
    refine Eq.trans ?_ (numbered.agrees y key fun u d at_ => ?_)
    · split
      · rename_i here
        rw [OrderedMap.find_set_of_ne (elsewhere here), here]
      · rfl
    · have here := locked.one u w (by rw [at_]; exact Option.some_ne_none y) adding
      rw [here, pc] at at_
      cases at_

theorem Numbered.return_ {cb : ListenerCb} (numbered : Numbered ls s) (locked : Locked s.thread)
    (pc : s.thread w = .returns x cb) : Numbered (ls ++ [(w, .returns x cb s.s_dun_id)]) (s.at_ w .idle) := by
  have adding : (s.thread w).adds ≠ none := by
    rw [pc]
    exact Option.some_ne_none x
  have labels : returned (ls ++ [(w, .returns x cb s.s_dun_id)]) = returned ls ++ [s.s_dun_id] := by simp [returned]
  obtain ⟨found, less⟩ := numbered.returns w x cb pc
  have none : ∀ u, ((s.at_ w .idle).thread u).adds = none := by
    intro u
    by_cases here : u = w
    · rw [here, thread_at_self]
      rfl
    · rw [thread_at_of_ne here]
      exact locked.alone adding here
  refine ⟨?_, fun key used => ?_, fun u y d n at_ => ?_, fun u y d at_ => ?_, fun u y d at_ => ?_, ?_,
    fun y key _ => ?_⟩
  · exact numbered.number.trans (by simp [increments])
  · rcases used with inLabels | inMaps
    · rw [labels] at inLabels
      rcases List.mem_append.mp inLabels with before | now
      · exact numbered.bound key (.inl before)
      · exact (List.mem_singleton.mp now).le
    · exact numbered.bound key (.inr inMaps)
  · have adds := none u
    rw [at_] at adds
    cases adds
  · have adds := none u
    rw [at_] at adds
    cases adds
  · have adds := none u
    rw [at_] at adds
    cases adds
  · rw [labels]
    refine List.pairwise_append.mpr ⟨numbered.increasing, List.pairwise_singleton _ _, fun key before last now => ?_⟩
    rw [List.mem_singleton.mp now]
    exact less key before
  · rw [known_concat]
    by_cases here : x = y ∧ s.s_dun_id = key
    · obtain ⟨rfl, rfl⟩ := here
      exact found.trans (if_pos ⟨rfl, rfl⟩).symm
    · refine (numbered.agrees y key fun u d at_ same => here ?_).trans (if_neg here).symm
      have one := locked.one u w (by rw [at_]; exact Option.some_ne_none y) adding
      rw [one, pc] at at_
      cases at_
      exact ⟨rfl, same.symm⟩

/-- Listeners go, of a variable to which nobody is adding one. -/
theorem Numbered.remove {m_cbs : OrderedMap UInt64 ListenerCb} (gone : UInt64 → Prop) [DecidablePred gone]
    (numbered : Numbered ls s) (free : ∀ u, (s.thread u).adds ≠ some x)
    (find : ∀ key, m_cbs.find key = if gone key then none else (s.var x).m_cbs.find key)
    (known' : ∀ y key, known (ls ++ [(w, a)]) y key = if x = y ∧ gone key then none else known ls y key)
    (labels : returned (ls ++ [(w, a)]) = returned ls) (count : increments (ls ++ [(w, a)]) = increments ls) :
    Numbered (ls ++ [(w, a)]) (s.setCbs x m_cbs) := by
  have fewer : ∀ key, Used (ls ++ [(w, a)]) (s.setCbs x m_cbs) key → Used ls s key := by
    rintro key (inLabels | ⟨y, cb, found⟩)
    · exact .inl (labels ▸ inLabels)
    · rw [find_setCbs] at found
      split at found
      · rw [find] at found
        split at found
        · cases found
        · exact .inr ⟨x, cb, found⟩
      · exact .inr ⟨y, cb, found⟩
  refine ⟨count ▸ numbered.number, fun key used => numbered.bound key (fewer key used), numbered.stores,
    fun u y cb at_ key used => numbered.inserts u y cb at_ key (fewer key used), fun u y cb at_ => ?_,
    labels ▸ numbered.increasing, fun y key adding => ?_⟩
  · have other : y ≠ x := by
      rintro rfl
      refine free u ?_
      rw [show s.thread u = .returns y cb from at_]
      rfl
    rw [find_setCbs, if_neg other, labels]
    exact numbered.returns u y cb at_
  · have before := numbered.agrees y key adding
    rw [find_setCbs, known']
    by_cases here : y = x
    · subst here
      rw [if_pos rfl, find]
      by_cases goes : gone key
      · rw [if_pos goes, if_pos ⟨rfl, goes⟩]
      · rw [if_neg goes, if_neg fun both => goes both.2]
        exact before
    · rw [if_neg here, if_neg fun both => here both.1.symm]
      exact before

theorem thread_eq_at {pc : Listening T} (at_ : s.thread w = pc) : s.thread = (s.at_ w pc).thread := by
  rw [← at_]
  exact (Function.update_eq_self ..).symm

theorem setCbs_of_ne {m_cbs : OrderedMap UInt64 ListenerCb} {y : Nat} (other : y ≠ x) :
    (s.setCbs x m_cbs).var y = s.var y := Function.update_of_ne other ..

variable [BEq T]

/-- A `setValue` under its read lock has called the first ones of the listeners, and what it has found, another value
than its own, is still there. -/
structure Telling (ls : List (Nat × Act T)) (s : ListenedVars T) (w x : Nat) (v old : T)
    (rest : List (UInt64 × ListenerCb)) : Prop where
  stays : (s.var x).m_val = old
  differs : (v == old) = false
  told : told ls w ++ rest = (s.var x).m_cbs.entries

/-- What holds in every state of a run in which the steps are `Apart`. -/
structure Good (ls : List (Nat × Act T)) (s : ListenedVars T) : Prop where
  locked : Locked s.thread
  numbered : Numbered ls s
  telling : ∀ w x v old rest, s.thread w = .notifies x v old rest → Telling ls s w x v old rest

/-- The others go on telling of the variables that a step leaves alone. -/
theorem Good.tells {pc : Listening T} (good : Good ls s) (thread : t.thread = (s.at_ w pc).thread)
    (vars : ∀ u y, u ≠ w → (s.thread u).reads = some y → t.var y = s.var y)
    (mine : ∀ x v old rest, pc = .notifies x v old rest → Telling (ls ++ [(w, a)]) t w x v old rest) :
    ∀ u x v old rest, t.thread u = .notifies x v old rest → Telling (ls ++ [(w, a)]) t u x v old rest := by
  intro u x v old rest at_
  by_cases here : u = w
  · rw [here, thread, thread_at_self] at at_
    rw [here]
    exact mine x v old rest at_
  · rw [thread, thread_at_of_ne here] at at_
    have same : t.var x = s.var x := vars u x here (by rw [at_]; rfl)
    obtain ⟨stays, differs, told⟩ := good.telling u x v old rest at_
    refine ⟨same ▸ stays, differs, ?_⟩
    rw [told_concat, if_neg (Ne.symm here), same]
    exact told

/-- A step of a thread that is not in `addListener` and does not write a map. -/
theorem Good.passes {pc : Listening T} (good : Good ls s) (thread : t.thread = (s.at_ w pc).thread)
    (vars : ∀ u y, u ≠ w → (s.thread u).reads = some y → t.var y = s.var y)
    (cbs : ∀ y, (t.var y).m_cbs = (s.var y).m_cbs) (number : t.s_dun_id = s.s_dun_id)
    (before : (s.thread w).adds = none) (after : pc.adds = none)
    (reads : ∀ x, pc.reads = some x → (s.thread w).reads = some x ∨ ∀ u, (s.thread u).adds ≠ some x)
    (silent : Silent a)
    (mine : ∀ x v old rest, pc = .notifies x v old rest → Telling (ls ++ [(w, a)]) t w x v old rest) :
    Good (ls ++ [(w, a)]) t where
  locked := thread ▸ good.locked.at_ (fun x adds => nomatch after.symm.trans adds) reads (.inl after)
  numbered := by
    refine good.numbered.at_ (fun y key => by rw [cbs]) number thread ?_ ?_ ?_ ?_ silent
    · intro x cb at_
      rw [at_] at before
      cases before
    · rintro x cb n rfl
      cases after
    · rintro x cb rfl
      cases after
    · rintro x cb rfl
      cases after
  telling := good.tells thread vars mine

theorem Good.addListener {cb : ListenerCb} (good : Good ls s) (apart : ∀ u, (s.thread u).adds = none)
    (free : s.Free x) (done : s.act w (.addListener x cb) = some t) : Good (ls ++ [(w, .addListener x cb)]) t := by
  cases pc : s.thread w with
  | idle =>
    simp only [act, pc, Option.some.injEq] at done
    subst done
    refine ⟨good.locked.at_ (fun y adds => .inr ⟨apart, ?_⟩) nofun (.inr rfl),
      good.numbered.at_ (fun _ _ => rfl) rfl rfl (pc ▸ nofun) nofun nofun nofun trivial,
      good.tells rfl (fun _ _ _ _ => rfl) nofun⟩
    cases adds
    exact free
  | _ => simp [act, pc] at done

theorem Good.load (good : Good ls s) (done : s.act w .load = some t) : Good (ls ++ [(w, .load)]) t := by
  cases pc : s.thread w with
  | loads x cb =>
    simp only [act, pc, Option.some.injEq] at done
    subst done
    refine ⟨good.locked.at_ (fun y adds => .inl ?_) nofun (.inr rfl),
      good.numbered.at_ (fun _ _ => rfl) rfl rfl (pc ▸ nofun) ?_ nofun nofun trivial,
      good.tells rfl (fun _ _ _ _ => rfl) nofun⟩
    · cases adds
      rw [pc]
      rfl
    · rintro y d n ⟨⟩
      rfl
  | _ => simp [act, pc] at done

theorem Good.store (good : Good ls s) (few : increments (ls ++ [(w, .store)]) < UInt64.size)
    (done : s.act w .store = some t) : Good (ls ++ [(w, .store)]) t := by
  cases pc : s.thread w with
  | stores x cb n =>
    simp only [act, pc, Option.some.injEq] at done
    subst done
    refine ⟨good.locked.at_ (fun y adds => .inl ?_) nofun (.inr rfl), good.numbered.store good.locked pc few,
      good.tells rfl (fun _ _ _ _ => rfl) nofun⟩
    cases adds
    rw [pc]
    rfl
  | _ => simp [act, pc] at done

theorem Good.insert (good : Good ls s) (done : s.act w .insert = some t) : Good (ls ++ [(w, .insert)]) t := by
  cases pc : s.thread w with
  | inserts x cb =>
    simp only [act, pc, Option.some.injEq] at done
    subst done
    refine ⟨good.locked.at_ (fun y adds => .inl ?_) nofun (.inr rfl), good.numbered.insert good.locked pc,
      good.tells rfl (fun u y _ reads => setCbs_of_ne ?_) nofun⟩
    · cases adds
      rw [pc]
      rfl
    · rintro rfl
      exact good.locked.lock w u y (by rw [pc]; rfl) reads
  | _ => simp [act, pc] at done

theorem Good.returns {cb : ListenerCb} {key : UInt64} (good : Good ls s)
    (done : s.act w (.returns x cb key) = some t) : Good (ls ++ [(w, .returns x cb key)]) t := by
  cases pc : s.thread w with
  | returns y d =>
    simp only [act, pc, Option.ite_none_right_eq_some, Option.some.injEq] at done
    obtain ⟨⟨rfl, rfl, rfl⟩, rfl⟩ := done
    exact ⟨good.locked.at_ nofun nofun (.inr rfl), good.numbered.return_ good.locked pc,
      good.tells rfl (fun _ _ _ _ => rfl) nofun⟩
  | _ => simp [act, pc] at done

theorem Good.delListener {key : UInt64} (good : Good ls s) (free : s.Free x)
    (done : s.act w (.delListener x key) = some t) : Good (ls ++ [(w, .delListener x key)]) t := by
  cases pc : s.thread w with
  | idle =>
    simp only [act, pc, Option.some.injEq] at done
    subst done
    refine ⟨good.locked, good.numbered.remove (fun k => key = k) (fun u => (free u).1) (fun k => ?_)
      (fun y k => known_concat ..) (by simp [returned]) (by simp [increments]),
      good.tells (thread_eq_at pc) (fun u y _ reads => setCbs_of_ne ?_) nofun⟩
    · by_cases same : key = k
      · rw [if_pos same, same]
        exact OrderedMap.find_erase_self
      · rw [if_neg same]
        exact OrderedMap.find_erase_of_ne (Ne.symm same)
    · rintro rfl
      exact (free u).2 reads
  | _ => simp [act, pc] at done

theorem Good.clearListener (good : Good ls s) (free : s.Free x) (done : s.act w (.clearListener x) = some t) :
    Good (ls ++ [(w, .clearListener x)]) t := by
  cases pc : s.thread w with
  | idle =>
    simp only [act, pc, Option.some.injEq] at done
    subst done
    refine ⟨good.locked, good.numbered.remove (fun _ => True) (fun u => (free u).1) (fun k => rfl)
      (fun y k => ?_) (by simp [returned]) (by simp [increments]),
      good.tells (thread_eq_at pc) (fun u y _ reads => setCbs_of_ne ?_) nofun⟩
    · rw [known_concat]
      simp
    · rintro rfl
      exact (free u).2 reads
  | _ => simp [act, pc] at done

/-- The loop over the listeners begins with the value that has been compared. -/
theorem Good.setValue {v : T} (good : Good ls s) (unwritten : ∀ u, (s.thread u).adds ≠ some x)
    (done : s.act w (.setValue x v) = some t) : Good (ls ++ [(w, .setValue x v)]) t := by
  cases pc : s.thread w with
  | idle =>
    simp only [act, pc] at done
    split at done
    · cases done
      exact good.passes (thread_eq_at pc) (fun _ _ _ _ => rfl) (fun _ => rfl) rfl (by rw [pc]; rfl) rfl nofun trivial
        nofun
    · rename_i other
      cases done
      refine good.passes rfl (fun _ _ _ _ => rfl) (fun _ => rfl) rfl (by rw [pc]; rfl) rfl ?_ trivial ?_
      · rintro y ⟨⟩
        exact .inr unwritten
      · rintro y d old rest ⟨⟩
        refine ⟨rfl, Bool.eq_false_iff.mpr other, ?_⟩
        rw [told_concat, if_pos rfl]
        rfl
  | _ => simp [act, pc] at done

theorem Good.notify {key : UInt64} {cb : ListenerCb} (good : Good ls s) (done : s.act w (.notify key cb) = some t) :
    Good (ls ++ [(w, .notify key cb)]) t := by
  cases pc : s.thread w with
  | notifies x v old rest =>
    cases rest with
    | nil => simp [act, pc] at done
    | cons e rest =>
      simp only [act, pc, Option.ite_none_right_eq_some, Option.some.injEq] at done
      obtain ⟨rfl, rfl⟩ := done
      refine good.passes rfl (fun _ _ _ _ => rfl) (fun _ => rfl) rfl (by rw [pc]; rfl) rfl ?_ trivial ?_
      · rintro y ⟨⟩
        exact .inl (by rw [pc]; rfl)
      · rintro y d found more ⟨⟩
        obtain ⟨stays, differs, told⟩ := good.telling w x v old _ pc
        refine ⟨stays, differs, ?_⟩
        rw [told_concat, if_pos rfl]
        show (ListenedVars.told ls w ++ [(key, cb)]) ++ rest = _
        rw [List.append_assoc]
        exact told
  | _ => simp [act, pc] at done

theorem Good.unlock (good : Good ls s) (done : s.act w .unlock = some t) : Good (ls ++ [(w, .unlock)]) t := by
  cases pc : s.thread w with
  | notifies x v old rest =>
    cases rest with
    | nil =>
      simp only [act, pc, Option.some.injEq] at done
      subst done
      exact good.passes rfl (fun _ _ _ _ => rfl) (fun _ => rfl) rfl (by rw [pc]; rfl) rfl nofun trivial nofun
    | cons e rest => simp [act, pc] at done
  | _ => simp [act, pc] at done

/-- Nobody is telling the listeners of a variable whose value changes. -/
theorem Good.assign (good : Good ls s) (free : ∀ x v, s.thread w = .assigns x v → s.Free x)
    (done : s.act w .assign = some t) : Good (ls ++ [(w, .assign)]) t := by
  cases pc : s.thread w with
  | assigns x v =>
    simp only [act, pc, Option.some.injEq] at done
    subst done
    refine good.passes rfl (fun u y _ reads => Function.update_of_ne ?_ ..) (fun y => ?_) rfl (by rw [pc]; rfl) rfl
      nofun trivial nofun
    · rintro rfl
      exact (free y v pc u).2 reads
    · by_cases here : y = x
      · show (Function.update s.var x _ y).m_cbs = _
        rw [here, Function.update_self]
      · exact congrArg ListenedVar.m_cbs (Function.update_of_ne here ..)
  | _ => simp [act, pc] at done

theorem Good.step {l : Nat × Act T} (good : Good ls s) (step : Guarded Step Apart s l t)
    (few : increments (ls ++ [l]) < UInt64.size) : Good (ls ++ [l]) t := by
  obtain ⟨⟨locks, done⟩, apart⟩ := step
  obtain ⟨w, a⟩ := l
  cases a with
  | addListener x cb => exact good.addListener apart locks done
  | load => exact good.load done
  | store => exact good.store few done
  | insert => exact good.insert done
  | returns x cb key => exact good.returns done
  | delListener x key => exact good.delListener locks done
  | clearListener x => exact good.clearListener apart done
  | setValue x v => exact good.setValue locks done
  | notify key cb => exact good.notify done
  | unlock => exact good.unlock done
  | assign => exact good.assign locks done

theorem good_init (val : Nat → T) : Good [] { var := fun x => { m_val := val x } } where
  locked := ⟨fun _ _ adds => absurd rfl adds, nofun⟩
  numbered := by
    refine ⟨rfl, fun key used => ?_, nofun, nofun, nofun, .nil, fun _ _ _ => rfl⟩
    rcases used with inLabels | ⟨_, _, found⟩
    · cases inLabels
    · cases found
  telling := nofun

theorem good_of_run {val : Nat → T} (run : Run (Guarded Step Apart) { var := fun x => { m_val := val x } } ls s)
    (few : increments ls < UInt64.size) : Good ls s := by
  induction run with
  | start => exact good_init val
  | next _ step ih => exact (ih (Nat.lt_of_le_of_lt (increments_concat ..) few)).step step few

/-- In every run in which no two calls of `addListener` overlap, their number fits `s_dun_id` and `clearListener` finds
nobody in its map: the keys are returned in increasing order and never twice, a variable has just the listeners whose
keys have been returned and neither deleted nor cleared since, and a `setValue` that finds another value calls each of
these once, in the order of their keys, before it stores its own; until all have been called, the value that it has
found stays. -/
theorem listeners_of_run {val : Nat → T} (run : Run (Guarded Step Apart) { var := fun x => { m_val := val x } } ls s)
    (few : increments ls < UInt64.size) :
    (returned ls).Pairwise (· < ·) ∧
    (∀ x, (∀ w, (s.thread w).adds ≠ some x) → ∀ key, s.getListener x key = known ls x key) ∧
    ∀ w x v old rest, s.thread w = .notifies x v old rest → (s.var x).m_val = old ∧ (v == old) = false ∧
      (told ls w ++ rest).Pairwise (fun d e => d.1 < e.1) ∧
      ∀ key cb, (key, cb) ∈ told ls w ++ rest ↔ known ls x key = some cb := by
  have good : Good ls s := good_of_run run few
  have agrees : ∀ x, (∀ w, (s.thread w).adds ≠ some x) → ∀ key, s.getListener x key = known ls x key := by
    intro x free key
    refine good.numbered.agrees x key fun w cb at_ => absurd ?_ (free w)
    rw [at_]
    rfl
  refine ⟨good.numbered.increasing, agrees, fun w x v old rest at_ => ?_⟩
  obtain ⟨stays, differs, entries⟩ := good.telling w x v old rest at_
  have free : ∀ u, (s.thread u).adds ≠ some x := by
    intro u adds
    refine good.locked.lock u w x adds ?_
    rw [at_]
    rfl
  refine ⟨stays, differs, ?_, fun key cb => ?_⟩
  · rw [entries]
    exact (s.var x).m_cbs.sorted
  · rw [entries, ← agrees x free key]
    exact OrderedMap.find_eq_some_iff.symm

/-- Thread 0 is the only one. -/
def Sole (s : ListenedVars T) : Prop := ∀ u, u ≠ 0 → s.thread u = .idle

theorem Sole.step (sole : s.Sole) (done : s.act 0 a = some t) : Guarded Step Apart s (0, a) t ∧ t.Sole := by
  have free : ∀ {pc : Listening T}, s.thread 0 = pc → pc.adds = none → pc.reads = none →
      ∀ x, s.Free x := by
    intro pc at_ adds reads x u
    by_cases here : u = 0
    · rw [here, at_, adds, reads]
      exact ⟨nofun, nofun⟩
    · rw [sole u here]
      exact ⟨nofun, nofun⟩
  have alone : s.thread 0 = .idle → ∀ u, (s.thread u).adds = none := by
    intro idle u
    by_cases here : u = 0
    · rw [here, idle]
      rfl
    · rw [sole u here]
      rfl
  have others : ∀ u, u ≠ 0 → t.thread u = s.thread u := by
    intro u other
    unfold act at done
    split at done
    all_goals try split at done
    all_goals cases done
    all_goals first | rfl | exact thread_at_of_ne other
  refine ⟨⟨⟨?_, done⟩, ?_⟩, fun u other => (others u other).trans (sole u other)⟩
  · cases a with
    | addListener | delListener =>
      cases pc : s.thread 0 with
      | idle => exact free pc rfl rfl _
      | _ => simp [act, pc] at done
    | setValue =>
      cases pc : s.thread 0 with
      | idle => exact fun u => (free pc rfl rfl _ u).1
      | _ => simp [act, pc] at done
    | assign =>
      intro x v pc
      exact free pc rfl rfl x
    | _ => trivial
  · cases a with
    | addListener =>
      cases pc : s.thread 0 with
      | idle => exact alone pc
      | _ => simp [act, pc] at done
    | clearListener =>
      cases pc : s.thread 0 with
      | idle => exact free pc rfl rfl _
      | _ => simp [act, pc] at done
    | _ => trivial

theorem run_of_sole {as : List (Act T)} (sole : s.Sole) (done : acts (fun s a => s.act 0 a) s as = some t) :
    Run (Guarded Step Apart) s (as.map fun a => (0, a)) t := by
  induction as generalizing s with
  | nil =>
    cases done
    exact .start
  | cons a as ih =>
    rw [acts, List.foldlM_cons] at done
    obtain ⟨u, first, rest⟩ := Option.bind_eq_some_iff.mp done
    obtain ⟨step, sole⟩ := sole.step first
    exact (ih sole rest).cons step

/-- Three listeners, of which one goes again and one has been called with the value that is being set. -/
def addsThree : List (Act Nat) :=
  [.addListener 0 7, .load, .store, .insert, .returns 0 7 1, .addListener 0 8, .load, .store, .insert, .returns 0 8 2,
    .addListener 0 9, .load, .store, .insert, .returns 0 9 3, .delListener 0 1, .setValue 0 5, .notify 2 8]

theorem listeners_of_run_addsThree : ∃ s : ListenedVars Nat,
    Run (Guarded Step Apart) { var := fun _ => { m_val := 3 } } (addsThree.map fun a => (0, a)) s ∧
    s.thread 0 = .notifies 0 5 3 [(3, 9)] ∧ (s.var 0).m_val = 3 ∧
    known (addsThree.map fun a => (0, a)) 0 3 = some 9 := by
  obtain ⟨s, done, at_⟩ : ∃ s : ListenedVars Nat,
      acts (fun s a => s.act 0 a) { var := fun _ => { m_val := 3 } } addsThree = some s ∧
      s.thread 0 = .notifies 0 5 3 [(3, 9)] := ⟨_, rfl, rfl⟩
  have run := run_of_sole (fun _ _ => rfl) done
  obtain ⟨stays, -, -, tells⟩ := (listeners_of_run run (by decide)).2.2 0 0 5 3 _ at_
  exact ⟨s, run, at_, stays, (tells 3 9).mp (List.mem_append_right _ (List.mem_singleton_self _))⟩

/-- The steps of `addListener` behind its lock. -/
def adding (s : ListenedVars T) (l : Nat × Act T) : Option (ListenedVars T) :=
  match l.2 with
  | .load | .store | .insert | .returns .. => s.act l.1 l.2
  | _ => none

theorem step_of_adding {l : Nat × Act T} (added : s.adding l = some t) : Step s l t := by
  obtain ⟨w, a⟩ := l
  cases a with
  | load | store | insert | returns => exact ⟨trivial, added⟩
  | _ => cases added

/-- Two calls for different variables overlap, and both return 2, under which only one of them has put its listener. -/
def overlaps : List (Nat × Act Nat) :=
  [(0, .load), (0, .store), (0, .insert), (1, .load), (1, .store), (0, .returns 0 7 2), (1, .insert),
   (1, .returns 1 8 2)]

theorem not_known_overlaps : ∃ s : ListenedVars Nat,
    Run Step { var := fun _ => { m_val := 3 } } ((0, .addListener 0 7) :: (1, .addListener 1 8) :: overlaps) s ∧
    s.getListener 0 2 = none ∧ known ((0, .addListener 0 7) :: (1, .addListener 1 8) :: overlaps) 0 2 = some 7 := by
  let first : ListenedVars Nat := ListenedVars.at_ { var := fun _ => { m_val := 3 } } 0 (.loads 0 7)
  obtain ⟨s, done, absent⟩ : ∃ s, acts adding (first.at_ 1 (.loads 1 8)) overlaps = some s ∧ s.getListener 0 2 = none :=
    ⟨_, rfl, rfl⟩
  have free : first.Free 1 := by
    intro u
    by_cases here : u = 0
    · rw [here]
      exact ⟨nofun, nofun⟩
    · rw [show first.thread u = .idle from thread_at_of_ne here]
      exact ⟨nofun, nofun⟩
  have rest := (run_of_acts adding done).mono fun _ _ _ => step_of_adding
  exact ⟨s, .cons ⟨fun _ => ⟨nofun, nofun⟩, rfl⟩ (.cons ⟨free, rfl⟩ rest), absent, rfl⟩

end ListenedVars
end Sylar
