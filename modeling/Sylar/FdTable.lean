import Sylar.FdManager

/-! `FdManager` with its contexts behind pointers, and the map from descriptors to contexts that it
stands for. -/

namespace Sylar

/-- The address of an `FdCtx`. -/
abbrev CtxPtr := Nat

/-- The kernel, the vector `m_datas`, and the contexts that have been made so far. -/
structure FdTable where
  kernel : Kernel
  m_datas : List (Option CtxPtr) := List.replicate 64 none
  heap : CtxPtr → FdCtx := fun _ => {}
  m_fd : CtxPtr → Int := fun _ => 0
  made : Nat := 0

/-- The two ways out of the part of `FdManager::get` under the read lock. -/
inductive Found
  | returns (ctx : Option CtxPtr)
  | creates
  deriving DecidableEq, Repr

namespace FdTable

variable (refuses : BitVec 32 → Bool)

/-- `FdManager::get` under the read lock. An access outside of the vector has no defined result. -/
def lookup (s : FdTable) (fd : Int) (auto_create : Bool) : Option Found :=
  if (s.m_datas.length : Int) ≤ fd then
    if auto_create then some .creates else some (.returns none)
  else if fd < 0 then none
  else do
    let slot ← s.m_datas[fd.toNat]?
    return if slot.isSome || !auto_create then .returns slot else .creates

/-- `FdManager::get` under the write lock: a context is made whatever the vector holds by now. -/
def create (s : FdTable) (fd : Int) : Option (CtxPtr × FdTable) :=
  let (ctx, kernel) := FdCtx.init refuses s.kernel fd
  if 0 ≤ fd ∧ fd < s.m_datas.length then
    some (s.made, {
      kernel := kernel
      m_datas := s.m_datas.set fd.toNat (some s.made)
      heap := Function.update s.heap s.made ctx
      m_fd := Function.update s.m_fd s.made fd
      made := s.made + 1 })
  else none

def get (s : FdTable) (fd : Int) (auto_create : Bool) : Option (Option CtxPtr × FdTable) := do
  match ← s.lookup fd auto_create with
  | .returns ctx => return (ctx, s)
  | .creates =>
    let (ctx, s) ← s.create refuses fd
    return (some ctx, s)

def del (s : FdTable) (fd : Int) : Option FdTable :=
  if (s.m_datas.length : Int) ≤ fd then some s
  else if fd < 0 then none
  else some { s with m_datas := s.m_datas.set fd.toNat none }

/-- What the vector has for a descriptor. -/
def slot (s : FdTable) (fd : Int) : Option CtxPtr := if fd < 0 then none else (s.m_datas[fd.toNat]?).join

end FdTable

/-- A call of `FdManager::get` or `del`. -/
inductive FdCall
  | get (fd : Int) (auto_create : Bool)
  | del (fd : Int)
  deriving DecidableEq, Repr

namespace FdTable

variable (refuses : BitVec 32 → Bool)

def act (s : FdTable) : FdCall → Option (Option CtxPtr × FdTable)
  | .get fd auto_create => s.get refuses fd auto_create
  | .del fd => (s.del fd).map fun s => (none, s)

/-- What the calls return, one after the other. -/
def calls (s : FdTable) : List FdCall → Option (List (Option CtxPtr))
  | [] => some []
  | c :: cs => do
    let (ctx, s) ← s.act refuses c
    let rest ← s.calls cs
    return ctx :: rest

end FdTable

/-- A map from descriptors to contexts. -/
structure Contexts where
  ctx : Int → Option CtxPtr := fun _ => none
  made : Nat := 0

namespace Contexts

/-- `get(fd, true)` returns the context of the descriptor and makes it if there is none; negative
descriptors never have one. -/
def act (m : Contexts) : FdCall → Option CtxPtr × Contexts
  | .get fd auto_create =>
    match m.ctx fd with
    | some ctx => (some ctx, m)
    | none =>
      if auto_create ∧ 0 ≤ fd then (some m.made, { ctx := Function.update m.ctx fd (some m.made), made := m.made + 1 })
      else (none, m)
  | .del fd => (none, { m with ctx := Function.update m.ctx fd none })

def calls (m : Contexts) : List FdCall → List (Option CtxPtr)
  | [] => []
  | c :: cs => (m.act c).1 :: (m.act c).2.calls cs

end Contexts

/-- The descriptor is not negative, and one that may get a context has a place in the vector. -/
def FdCall.InRange : FdCall → Prop
  | .get fd auto_create => 0 ≤ fd ∧ (auto_create → fd < 64)
  | .del fd => 0 ≤ fd

namespace FdTable

variable {refuses : BitVec 32 → Bool} {s t : FdTable} {m : Contexts} {fd : Int}

theorem slot_set {datas : List (Option CtxPtr)} {value : Option CtxPtr} (positive : 0 ≤ fd)
    (inside : fd < s.m_datas.length) (same : t.m_datas = datas) (set : datas = s.m_datas.set fd.toNat value) :
    t.slot = Function.update s.slot fd value := by
  funext g
  simp only [slot, same, set]
  by_cases here : g = fd
  · subst here
    have bound : g.toNat < s.m_datas.length := by omega
    rw [Function.update_self, if_neg (by omega), List.getElem?_set_self bound]
    rfl
  · rw [Function.update_of_ne here]
    simp only [slot]
    split
    · rfl
    · rw [List.getElem?_set_ne (by omega)]

theorem slot_outside (outside : (s.m_datas.length : Int) ≤ fd) : s.slot fd = none := by
  rw [slot, if_neg (by omega), List.getElem?_eq_none (by omega)]
  rfl

theorem lookup_inside (positive : 0 ≤ fd) (inside : fd < s.m_datas.length) (auto_create : Bool) :
    s.lookup fd auto_create =
      some (if (s.slot fd).isSome || !auto_create then .returns (s.slot fd) else .creates) := by
  have bound : fd.toNat < s.m_datas.length := by omega
  have here : s.slot fd = s.m_datas[fd.toNat] := by
    rw [slot, if_neg (by omega), List.getElem?_eq_getElem bound]
    rfl
  rw [lookup, if_neg (by omega), if_neg (by omega), here, List.getElem?_eq_getElem bound]
  rfl

theorem lookup_outside (outside : (s.m_datas.length : Int) ≤ fd) (auto_create : Bool) :
    s.lookup fd auto_create = some (if auto_create then .creates else .returns none) := by
  rw [lookup, if_pos outside]
  cases auto_create <;> rfl

theorem lookup_negative (negative : fd < 0) (auto_create : Bool) : s.lookup fd auto_create = none := by
  rw [lookup, if_neg (by omega), if_pos negative]

variable (refuses) in
theorem create_inside (positive : 0 ≤ fd) (inside : fd < s.m_datas.length) : ∃ t,
    s.create refuses fd = some (s.made, t) ∧ t.slot = Function.update s.slot fd (some s.made) ∧ t.made = s.made + 1 ∧
    t.m_datas.length = s.m_datas.length := by
  refine ⟨_, if_pos ⟨positive, inside⟩, slot_set positive inside rfl rfl, rfl, ?_⟩
  exact List.length_set ..

variable (refuses) in
theorem create_outside (outside : ¬ (0 ≤ fd ∧ fd < s.m_datas.length)) : s.create refuses fd = none := if_neg outside

/-- The vector has what the map has. -/
structure Shows (s : FdTable) (m : Contexts) : Prop where
  size : s.m_datas.length = 64
  slot : s.slot = m.ctx
  made : s.made = m.made

variable (refuses) in
/-- A call within the vector does what the map does. -/
theorem Shows.act {c : FdCall} (shows : s.Shows m) (inRange : c.InRange) :
    ∃ t, s.act refuses c = some ((m.act c).1, t) ∧ t.Shows (m.act c).2 := by
  have size : (s.m_datas.length : Int) = 64 := by rw [shows.size]; rfl
  cases c with
  | get fd auto_create =>
    obtain ⟨positive, place⟩ := inRange
    simp only [FdTable.act, FdTable.get, Contexts.act, ← shows.slot, ← shows.made]
    by_cases inside : fd < s.m_datas.length
    · rw [lookup_inside positive inside]
      cases found : s.slot fd with
      | some ctx => exact ⟨s, rfl, shows⟩
      | none =>
        cases auto_create with
        | false => exact ⟨s, rfl, shows⟩
        | true =>
          obtain ⟨t, created, slots, made, length⟩ := create_inside refuses positive inside
          refine ⟨t, ?_, length.trans shows.size, ?_, ?_⟩
          · simp [created, positive]
          · rw [if_pos ⟨rfl, positive⟩, slots]
          · rw [if_pos ⟨rfl, positive⟩, made]
    · have outside : (s.m_datas.length : Int) ≤ fd := by omega
      have plain : auto_create = false := by
        by_contra creates
        rw [Bool.not_eq_false] at creates
        have := place creates
        omega
      subst plain
      rw [lookup_outside outside, slot_outside outside]
      exact ⟨s, rfl, shows⟩
  | del fd =>
    have positive : 0 ≤ fd := inRange
    simp only [FdTable.act, del, Contexts.act]
    by_cases outside : (s.m_datas.length : Int) ≤ fd
    · rw [if_pos outside]
      refine ⟨s, rfl, shows.size, ?_, shows.made⟩
      rw [shows.slot, Function.update_eq_self_iff.mpr]
      rw [← shows.slot, slot_outside outside]
    · rw [if_neg outside, if_neg (by omega)]
      refine ⟨_, rfl, ?_, ?_, shows.made⟩
      · rw [List.length_set, shows.size]
      · rw [← shows.slot]
        exact slot_set positive (by omega) rfl rfl

/-- Any other call reads or writes outside of the vector. -/
theorem Shows.act_eq_none {c : FdCall} (shows : s.Shows m) (outOfRange : ¬ c.InRange) : s.act refuses c = none := by
  have size : (s.m_datas.length : Int) = 64 := by rw [shows.size]; rfl
  cases c with
  | get fd auto_create =>
    simp only [FdTable.act, FdTable.get]
    by_cases negative : fd < 0
    · rw [lookup_negative negative]
      rfl
    · have creates : auto_create = true ∧ 64 ≤ fd := by
        simp only [FdCall.InRange, not_and, Classical.not_imp, Int.not_lt] at outOfRange
        exact outOfRange (by omega)
      rw [lookup_outside (by omega), creates.1]
      have outside : s.create refuses fd = none := create_outside refuses (by omega)
      simp [outside]
  | del fd =>
    have negative : fd < 0 := Int.not_le.mp outOfRange
    simp [FdTable.act, del, negative, show ¬ (s.m_datas.length : Int) ≤ fd by omega]

theorem Shows.calls_iff {cs : List FdCall} (shows : s.Shows m) :
    s.calls refuses cs = some (m.calls cs) ↔ ∀ c ∈ cs, c.InRange := by
  induction cs generalizing s m with
  | nil => simp [calls, Contexts.calls]
  | cons c cs ih =>
    rw [List.forall_mem_cons]
    by_cases inRange : c.InRange
    · obtain ⟨t, acted, after⟩ := shows.act refuses inRange
      rw [and_iff_right inRange, ← ih after]
      simp only [calls, acted, Contexts.calls, Option.bind_eq_bind, Option.bind_some]
      cases t.calls refuses cs <;> simp
    · simp [calls, shows.act_eq_none inRange, inRange]

theorem shows_init (kernel : Kernel) : Shows { kernel := kernel } {} := by
  refine ⟨List.length_replicate, ?_, rfl⟩
  funext fd
  simp only [slot, List.getElem?_replicate]
  split
  · rfl
  · split <;> rfl

/-- Every sequence of calls returns what the map of descriptors to contexts returns, without an access
outside of the vector, if and only if every descriptor is within range. -/
theorem calls_eq_contexts_iff (kernel : Kernel) (cs : List FdCall) :
    calls refuses { kernel := kernel } cs = some (({} : Contexts).calls cs) ↔ ∀ c ∈ cs, c.InRange :=
  (shows_init kernel).calls_iff

/-- `get(64, true)` writes outside of the vector, and `get(-1)` reads outside of it. -/
theorem not_calls_eq_contexts :
    calls (fun _ => false) { kernel := fun _ => none } [.get 64 true] ≠ some (({} : Contexts).calls [.get 64 true]) ∧
    calls (fun _ => false) { kernel := fun _ => none } [.get (-1) false] ≠
      some (({} : Contexts).calls [.get (-1) false]) := by
  decide

/-- The same manager with the contexts in place of their pointers. -/
def process (s : FdTable) : Process := { kernel := s.kernel, m_datas := s.m_datas.map (·.map s.heap) }

/-- The pointers in the vector are those of contexts that have been made. -/
def Made (s : FdTable) : Prop := ∀ c, some c ∈ s.m_datas → c < s.made

theorem length_process (s : FdTable) : s.process.m_datas.length = s.m_datas.length := List.length_map _

theorem process_get (s : FdTable) (fd : Int) :
    s.process.get fd = (s.get refuses fd false).map fun r => r.1.map s.heap := by
  rw [Process.get, length_process]
  by_cases outside : (s.m_datas.length : Int) ≤ fd
  · simp [get, lookup_outside outside, outside]
  · by_cases negative : fd < 0
    · simp [get, lookup_negative negative, outside, negative]
    · have bound : fd.toNat < s.m_datas.length := by omega
      simp [get, lookup, outside, negative, process, List.getElem?_eq_getElem bound]

theorem heap_old {ctx : FdCtx} (made : s.Made) :
    (s.m_datas.map fun slot => slot.map (Function.update s.heap s.made ctx)) = s.m_datas.map (·.map s.heap) := by
  refine List.map_congr_left fun slot member => ?_
  cases slot with
  | none => rfl
  | some c =>
    have old : c ≠ s.made := Nat.ne_of_lt (made c member)
    simp [Function.update_of_ne old]

/-- `create` makes what `getCreate` makes. -/
theorem process_create (made : s.Made) (empty : s.process.get fd = some none) :
    s.process.getCreate refuses fd = (s.create refuses fd).map fun r => (r.2.heap r.1, r.2.process) := by
  simp only [Process.getCreate, empty, Option.bind_eq_bind, Option.bind_some, length_process, create]
  have positive : 0 ≤ fd := by
    by_contra negative
    have outside : ¬ (s.m_datas.length : Int) ≤ fd := by omega
    rw [Process.get, length_process, if_neg outside, if_pos (by omega)] at empty
    cases empty
  by_cases outside : (s.m_datas.length : Int) ≤ fd
  · simp [outside, show ¬ fd < s.m_datas.length by omega]
  · have inside : fd < s.m_datas.length := by omega
    simp only [outside, if_false, positive, inside, and_self, if_true, Option.map_some, Function.update_self]
    simp only [process, List.map_set, heap_old made, Option.map_some, Function.update_self]
    rfl

theorem Made.create {c : CtxPtr} (made : s.Made) (created : s.create refuses fd = some (c, t)) : t.Made := by
  simp only [FdTable.create] at created
  split at created
  · cases created
    intro c member
    rcases List.mem_or_eq_of_mem_set member with old | new
    · exact Nat.lt_succ_of_lt (made c old)
    · cases new
      exact Nat.lt_succ_self _
  · cases created

end FdTable
end Sylar
