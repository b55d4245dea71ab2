import Mathlib.Algebra.Order.Ring.Int
import Sylar.IOManagerRegs

namespace Sylar
open Machine

variable {K κ : Type}

theorem length_contextResize {α : Type} (new : Nat → α) (contexts : List α) (size : Nat) :
    (contextResize new contexts size).length = size := by
  simp only [contextResize, List.length_append, List.length_take, List.length_map, List.length_range']
  omega

/-- Growing keeps every context at its index. -/
theorem contextResize_old {α : Type} (new : Nat → α) {contexts : List α} {size i : Nat}
    (grows : contexts.length ≤ size) (old : i < contexts.length) :
    (contextResize new contexts size)[i]? = contexts[i]? := by
  rw [contextResize, List.take_of_length_le grows, List.getElem?_append_left old]

theorem contextResize_new {α : Type} (new : Nat → α) {contexts : List α} {size i : Nat}
    (added : contexts.length ≤ i) (inside : i < size) :
    (contextResize new contexts size)[i]? = some (new i) := by
  have grows : contexts.length ≤ size := by omega
  rw [contextResize, List.take_of_length_le grows, List.getElem?_append_right added, List.getElem?_map,
    List.getElem?_range' (by omega)]
  simp only [Option.map_some]
  congr 2
  omega

/-- New contexts have no events. -/
theorem sum_contextResize {contexts : List (FdContext κ)} {size : Nat} (grows : contexts.length ≤ size) :
    ((contextResize (fun i => { fd := i }) contexts size).map FdContext.bitCount).sum =
      (contexts.map FdContext.bitCount).sum := by
  have none : FdContext.bitCount ∘ (fun i => ({ fd := i } : FdContext κ)) = fun _ => 0 := by
    funext i
    simp only [Function.comp_apply, Regs.context_empty, Regs.bitCount_context]
    rfl
  rw [contextResize, List.take_of_length_le grows, List.map_append, List.sum_append, List.map_map, none]
  simp

theorem contextResize_repr {contexts : List (FdContext κ)} {size : Nat} (grows : contexts.length ≤ size)
    (repr : ∀ i (c : FdContext κ), contexts[i]? = some c → c = c.regs.context i) (i : Nat) (c : FdContext κ)
    (atI : (contextResize (fun i => { fd := i }) contexts size)[i]? = some c) : c = c.regs.context i := by
  rcases Nat.lt_or_ge i contexts.length with old | added
  · rw [contextResize_old _ grows old] at atI
    exact repr i c atI
  · have inside := (List.getElem?_eq_some_iff.mp atI).1
    rw [length_contextResize] at inside
    rw [contextResize_new _ added inside] at atI
    cases Option.some.inj atI
    rw [Regs.context_empty, Regs.regs_context]

namespace IOManager

/-- The registrations of a descriptor; outside the table there are none. -/
def regs (s : IOManager K κ) (fd : Nat) : Regs κ :=
  match s.m_FdContexts[fd]? with
  | some c => c.regs
  | none => {}

/-- The table represents registrations, and the counter is their number. -/
structure Good (s : IOManager K κ) : Prop where
  size : 32 ≤ s.m_FdContexts.length
  repr : ∀ i (c : FdContext κ), s.m_FdContexts[i]? = some c → c = c.regs.context i
  count : s.m_pendingEventCount = (s.m_FdContexts.map FdContext.bitCount).sum

theorem regs_withKernel (s : IOManager K κ) (kernel : K) (fd : Nat) :
    regs { s with kernel := kernel } fd = s.regs fd := rfl

theorem Good.withKernel {s : IOManager K κ} (good : s.Good) (kernel : K) :
    ({ s with kernel := kernel } : IOManager K κ).Good :=
  ⟨good.size, good.repr, good.count⟩

/-- One registration replaced, with the counter adjusted. -/
def setReg (s : IOManager K κ) (fd : Nat) (event : Event) (x : Option (Registration κ)) : IOManager K κ :=
  { s with
    m_FdContexts := s.m_FdContexts.set fd (((s.regs fd).put event x).context fd)
    m_pendingEventCount := s.m_pendingEventCount + (((s.regs fd).put event x).count - (s.regs fd).count) }

theorem setReg_some {s : IOManager K κ} {fd : Nat} {event : Event} (real : event ≠ .NONE)
    (free : (s.regs fd).get event = none) (x : Registration κ) :
    s.setReg fd event (some x) = { s with
      m_FdContexts := s.m_FdContexts.set fd (((s.regs fd).put event (some x)).context fd)
      m_pendingEventCount := s.m_pendingEventCount + 1 } := by
  rw [setReg, Regs.count_put_some _ real free]
  congr 1
  omega

theorem setReg_none {s : IOManager K κ} {fd : Nat} {event : Event} {x : Registration κ}
    (taken : (s.regs fd).get event = some x) :
    s.setReg fd event none = { s with
      m_FdContexts := s.m_FdContexts.set fd (((s.regs fd).put event none).context fd)
      m_pendingEventCount := s.m_pendingEventCount - 1 } := by
  rw [setReg, Regs.count_put_none _ taken]
  congr 1
  omega

theorem Good.context_eq {s : IOManager K κ} (good : s.Good) {fd : Nat} (inside : fd < s.m_FdContexts.length) :
    s.m_FdContexts[fd]? = some ((s.regs fd).context fd) := by
  have atFd := List.getElem?_eq_getElem inside
  have same := good.repr fd _ atFd
  rw [regs, atFd]
  exact congrArg some same

theorem regs_outside {s : IOManager K κ} {fd : Nat} (outside : s.m_FdContexts.length ≤ fd) : s.regs fd = {} := by
  rw [regs, List.getElem?_eq_none outside]

theorem regs_setReg_self {s : IOManager K κ} {fd : Nat} (inside : fd < s.m_FdContexts.length) (event : Event)
    (x : Option (Registration κ)) : (s.setReg fd event x).regs fd = (s.regs fd).put event x := by
  conv_lhs => rw [regs, setReg]
  simp [inside]

theorem regs_setReg_ne {s : IOManager K κ} {fd other : Nat} (different : other ≠ fd) (event : Event)
    (x : Option (Registration κ)) : (s.setReg fd event x).regs other = s.regs other := by
  conv_lhs => rw [regs, setReg]
  simp only [List.getElem?_set_ne different.symm]
  rfl

theorem Good.setReg {s : IOManager K κ} (good : s.Good) {fd : Nat} (inside : fd < s.m_FdContexts.length)
    (event : Event) (x : Option (Registration κ)) : (s.setReg fd event x).Good where
  size := by simpa [IOManager.setReg] using good.size
  repr i c atI := by
    simp only [IOManager.setReg] at atI
    by_cases same : i = fd
    · subst same
      rw [List.getElem?_set_self inside] at atI
      cases Option.some.inj atI
      rw [Regs.regs_context]
    · rw [List.getElem?_set_ne (Ne.symm same)] at atI
      exact good.repr i c atI
  count := by
    have atFd := good.context_eq inside
    have bits : (s.m_FdContexts.map FdContext.bitCount)[fd]? = some (s.regs fd).count := by
      rw [List.getElem?_map, atFd, Option.map_some, Regs.bitCount_context]
    obtain ⟨inBits, bits⟩ := List.getElem?_eq_some_iff.mp bits
    simp only [IOManager.setReg, List.map_set, Regs.bitCount_context, List.sum_set', inBits, dif_pos, bits,
      good.count]
    omega

theorem Good.set_context {s : IOManager K κ} (good : s.Good) {fd : Nat} (inside : fd < s.m_FdContexts.length) :
    s.m_FdContexts.set fd ((s.regs fd).context fd) = s.m_FdContexts := by
  obtain ⟨_, atFd⟩ := List.getElem?_eq_some_iff.mp (good.context_eq inside)
  rw [← atFd, List.set_getElem_self]

/-- The state in which `addEvent` goes on after it has found the context of `fd`. -/
def grow (s : IOManager K κ) (fd : Nat) : IOManager K κ := (s.fdContext fd).1

theorem Good.grow_length {s : IOManager K κ} (good : s.Good) (fd : Nat) :
    fd < (s.grow fd).m_FdContexts.length ∧ s.m_FdContexts.length ≤ (s.grow fd).m_FdContexts.length := by
  have size := good.size
  rw [grow, fdContext]
  split
  · exact ⟨by assumption, Nat.le_refl _⟩
  · simp only [length_contextResize]
    omega

theorem Good.grow_regs {s : IOManager K κ} (good : s.Good) (fd other : Nat) :
    (s.grow fd).regs other = s.regs other := by
  have size := good.size
  rw [grow, fdContext]
  split
  · rfl
  · conv_lhs => rw [regs]
    rcases Nat.lt_or_ge other s.m_FdContexts.length with old | added
    · simp only [contextResize_old _ (by omega : s.m_FdContexts.length ≤ fd * 3 / 2) old]
      rfl
    · rw [regs_outside added]
      rcases Nat.lt_or_ge other (fd * 3 / 2) with inside | outside
      · simp only [contextResize_new _ added inside, Regs.context_empty, Regs.regs_context]
      · simp only [List.getElem?_eq_none ((length_contextResize _ _ _).trans_le outside)]

theorem Good.grow {s : IOManager K κ} (good : s.Good) (fd : Nat) : (s.grow fd).Good := by
  have size := good.size
  rw [IOManager.grow, fdContext]
  split
  · exact good
  · have grows : s.m_FdContexts.length ≤ fd * 3 / 2 := by omega
    refine ⟨?_, contextResize_repr grows good.repr, ?_⟩
    · rw [length_contextResize]
      omega
    · rw [sum_contextResize grows]
      exact good.count

theorem Good.fdContext_eq {s : IOManager K κ} (good : s.Good) (fd : Nat) :
    s.fdContext fd = (s.grow fd, some ((s.regs fd).context fd)) := by
  have atFd := (good.grow fd).context_eq (good.grow_length fd).1
  rw [good.grow_regs] at atFd
  rw [← atFd, IOManager.grow, fdContext]
  split <;> rfl

@[simp] theorem grow_kernel (s : IOManager K κ) (fd : Nat) : (s.grow fd).kernel = s.kernel := by
  rw [grow, fdContext]
  split <;> rfl

@[simp] theorem grow_queues (s : IOManager K κ) (fd : Nat) : (s.grow fd).queues = s.queues := by
  rw [grow, fdContext]
  split <;> rfl

@[simp] theorem grow_pending (s : IOManager K κ) (fd : Nat) :
    (s.grow fd).m_pendingEventCount = s.m_pendingEventCount := by
  rw [grow, fdContext]
  split <;> rfl

end IOManager
end Sylar
