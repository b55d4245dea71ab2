import Sylar.DoIo
import Sylar.HookEffect
import Sylar.Lib.CInt

/-! The socket timeouts: `setsockopt` of `hook.cc`, the two places of `FdCtx` for them, and the timer
that `do_io` makes of them. -/

namespace Sylar
open CInt

def SOL_SOCKET : Int := 1
def SO_RCVTIMEO : Int := 20
def SO_SNDTIMEO : Int := 21

structure timeval where
  tv_sec : Int64
  tv_usec : Int64
  deriving DecidableEq, Repr

def FdCtx.setTimeout (ctx : FdCtx) (type : Int) (v : UInt64) : FdCtx :=
  if type = SO_RCVTIMEO then { ctx with m_recvTimeout := v } else { ctx with m_sendTimeout := v }

def FdCtx.getTimeout (ctx : FdCtx) (type : Int) : UInt64 :=
  if type = SO_RCVTIMEO then ctx.m_recvTimeout else ctx.m_sendTimeout

/-- The value of `tv->tv_sec*100+tv->tv_usec/1000`. -/
def timevalMs (tv : timeval) : Option Int64 := do
  let ms ← long (tv.tv_sec.toInt * 100)
  long (ms.toInt + tv.tv_usec.toInt.tdiv 1000)

/-- `setsockopt` as far as the contexts are concerned. What `optval` points to is read as a `timeval` for
the two timeouts only. -/
def Process.setsockopt (s : Process) (t_hook_enable : Bool) (sockfd level optname : Int) (tv : timeval) :
    Option Process :=
  if ¬ t_hook_enable then some s
  else if level = SOL_SOCKET ∧ (optname = SO_RCVTIMEO ∨ optname = SO_SNDTIMEO) then do
    match ← s.get sockfd with
    | some ctx =>
      let v ← timevalMs tv
      return s.setCtx sockfd (ctx.setTimeout optname v.toUInt64)
    | none => return s
  else some s

/-- The hooks that are calls of `do_io`, with the arguments that they pass for `event` and `timeout_so`. -/
inductive IoHook
  | accept | read | readv | recv | recvfrom | recvmsg
  | write | writev | send | sendto | sendmsg
  deriving DecidableEq, Repr

def IoHook.event : IoHook → Event
  | .accept | .read | .readv | .recv | .recvfrom | .recvmsg => .READ
  | .write | .writev | .send | .sendto | .sendmsg => .WRITE

def IoHook.timeout_so : IoHook → Int
  | .accept | .read | .readv | .recv | .recvfrom | .recvmsg => SO_RCVTIMEO
  | .write | .writev | .send | .sendto | .sendmsg => SO_SNDTIMEO

/-- The duration of the timer that `do_io` arms before a wait, if it arms one. -/
def armed (to_ : UInt64) : Option UInt64 := if to_ ≠ -1 then some to_ else none

/-- Before a wait `do_io` arms a timer of the duration `armed`. -/
theorem IoWorkers.ioAct_armed {K κ : Type} (ep : Epoll K) (s : IoWorkers K κ) (call : CallId) {c : IoCall}
    (pc : c.pc = .arm) (timer : Ptr) (now : UInt64) :
    s.ioAct ep call c (.addConditionTimer timer now) = some (match armed c.to_ with
      | some ms => { s.goto call c (.addEvent (some timer)) with
          timers := (s.timers.addConditionTimer timer ms (some (.timeout call)) call false now).2 }
      | none => s.goto call c (.addEvent none)) := by
  simp only [ioAct, pc, armed]
  split <;> rfl

theorem FdCtx.getTimeout_setTimeout (ctx : FdCtx) (type : Int) (v : UInt64) :
    (ctx.setTimeout type v).getTimeout type = v := by
  unfold setTimeout getTimeout
  split <;> rfl

/-- The timeouts of the two directions do not share a place. -/
theorem FdCtx.getTimeout_setTimeout_of_ne (ctx : FdCtx) {type other : Int} (v : UInt64)
    (different : other ≠ type) (one : type = SO_RCVTIMEO ∨ other = SO_RCVTIMEO) :
    (ctx.setTimeout type v).getTimeout other = ctx.getTimeout other := by
  rcases one with rfl | rfl
  · simp [setTimeout, getTimeout, different]
  · simp [setTimeout, getTimeout, different.symm]

/-- A time span that the system takes for a timeout. -/
def timeval.Valid (tv : timeval) : Prop :=
  0 ≤ tv.tv_sec.toInt ∧ 0 ≤ tv.tv_usec.toInt ∧ tv.tv_usec.toInt < 1000000

instance timeval.decidableValid (tv : timeval) : Decidable tv.Valid := inferInstanceAs (Decidable (_ ∧ _))

/-- The whole milliseconds of a timeout. To the system, no time at all means no timeout. -/
def timeval.ms (tv : timeval) : Option Nat :=
  if tv.tv_sec.toInt = 0 ∧ tv.tv_usec.toInt = 0 then none
  else some (tv.tv_sec.toInt.toNat * 1000 + tv.tv_usec.toInt.toNat / 1000)

/-- After the option has been set, the waits in its direction arm a timer of just that time, and those in
the other direction arm what they armed before. -/
def Process.Enforces (s : Process) (fd optname : Int) (tv : timeval) : Prop :=
  ∃ s' ctx ctx', s.setsockopt true fd SOL_SOCKET optname tv = some s' ∧ s.get fd = some (some ctx) ∧
    s'.get fd = some (some ctx') ∧
    (∀ hook : IoHook, hook.timeout_so = optname →
      (armed (ctx'.getTimeout hook.timeout_so)).map UInt64.toNat = tv.ms) ∧
    ∀ hook : IoHook, hook.timeout_so ≠ optname →
      ctx'.getTimeout hook.timeout_so = ctx.getTimeout hook.timeout_so

/-- The sum has a value that a `long` holds, or seconds were asked for. -/
theorem timevalMs_cases {tv : timeval} (valid : tv.Valid) :
    (∃ v, timevalMs tv = some v ∧ v.toInt = tv.tv_sec.toInt * 100 + tv.tv_usec.toInt / 1000) ∨
      timevalMs tv = none ∧ tv.tv_sec.toInt ≠ 0 := by
  obtain ⟨sec, usecLower, usecUpper⟩ := valid
  have quotient : tv.tv_usec.toInt.tdiv 1000 = tv.tv_usec.toInt / 1000 := Int.tdiv_eq_ediv_of_nonneg usecLower
  rw [timevalMs, quotient]
  cases product : long (tv.tv_sec.toInt * 100) with
  | none =>
    have outside := long_eq_none_iff.mp product
    exact Or.inr ⟨rfl, by omega⟩
  | some n =>
    have value := long_eq_some_iff.mp product
    cases sum : long (n.toInt + tv.tv_usec.toInt / 1000) with
    | none =>
      have outside := long_eq_none_iff.mp sum
      exact Or.inr ⟨by simpa using sum, by omega⟩
    | some v =>
      have value' := long_eq_some_iff.mp sum
      exact Or.inl ⟨v, by simpa using sum, by omega⟩

/-- A number that is not negative is never the one that stands for no timeout. -/
theorem armed_of_nonneg {v : Int64} (nonneg : 0 ≤ v.toInt) :
    (armed v.toUInt64).map UInt64.toNat = some v.toInt.toNat := by
  have value := toNat_toUInt64 v
  have bound := v.toInt_lt
  have notSentinel : v.toUInt64 ≠ -1 := by
    intro same
    have sentinel : v.toUInt64.toNat = 2 ^ 64 - 1 := by rw [same]; rfl
    omega
  rw [armed, if_pos notSentinel]
  simp only [Option.map_some, Option.some.injEq]
  omega

namespace Process

variable {s : Process} {fd optname : Int} {ctx : FdCtx}

theorem setsockopt_eq (tracked : s.get fd = some (some ctx)) (named : optname = SO_RCVTIMEO ∨ optname = SO_SNDTIMEO)
    (tv : timeval) : s.setsockopt true fd SOL_SOCKET optname tv =
      (timevalMs tv).map fun v => s.setCtx fd (ctx.setTimeout optname v.toUInt64) := by
  simp only [setsockopt, not_true_eq_false, if_false, named, and_true, if_true, tracked]
  cases timevalMs tv <;> rfl

/-- For every socket with a context and every timeout, the option is enforced if and only if it asks for
less than a second, and not for no time. -/
theorem enforces_iff (tracked : s.get fd = some (some ctx))
    (named : optname = SO_RCVTIMEO ∨ optname = SO_SNDTIMEO) {tv : timeval} (valid : tv.Valid) :
    s.Enforces fd optname tv ↔ tv.tv_sec.toInt = 0 ∧ tv.tv_usec.toInt ≠ 0 := by
  obtain ⟨sec, usecLower, usecUpper⟩ := id valid
  have call := setsockopt_eq tracked named tv
  rcases timevalMs_cases valid with ⟨v, some, value⟩ | ⟨none, seconds⟩
  · rw [some, Option.map_some] at call
    have after : (s.setCtx fd (ctx.setTimeout optname v.toUInt64)).get fd =
        Option.some (Option.some (ctx.setTimeout optname v.toUInt64)) := by
      rw [setCtx, get_set (inside_of_get tracked) (positive_of_get tracked), Function.update_self]
    have waits := armed_of_nonneg (v := v) (by omega)
    have ms : Option.some v.toInt.toNat = tv.ms ↔ tv.tv_sec.toInt = 0 ∧ tv.tv_usec.toInt ≠ 0 := by
      unfold timeval.ms
      split
      · simp only [reduceCtorEq, false_iff]
        omega
      · simp only [Option.some.injEq]
        omega
    rw [← ms]
    constructor
    · rintro ⟨s', ctx₁, ctx', called, _, there, own, _⟩
      cases Option.some.inj (called.symm.trans call)
      cases Option.some.inj (Option.some.inj (there.symm.trans after))
      obtain ⟨hook, its⟩ : ∃ hook : IoHook, hook.timeout_so = optname := by
        rcases named with rfl | rfl
        · exact ⟨.read, rfl⟩
        · exact ⟨.write, rfl⟩
      rw [← own hook its, its, FdCtx.getTimeout_setTimeout, waits]
    · intro exact_
      refine ⟨_, ctx, _, call, tracked, after, ?_, ?_⟩
      · intro hook its
        rw [its, FdCtx.getTimeout_setTimeout, waits, exact_]
      · intro hook other
        refine FdCtx.getTimeout_setTimeout_of_ne ctx _ other ?_
        rcases named with rfl | rfl
        · exact Or.inl rfl
        · cases hook <;> first | exact Or.inr rfl | exact absurd rfl other
  · rw [none] at call
    refine iff_of_false ?_ fun allowed => seconds allowed.1
    rintro ⟨s', _, _, called, _⟩
    rw [call] at called
    cases called

/-- A process that has made the socket 3. -/
def tracks3 : Process := (({} : Process).socket (fun _ => false) true 0 3).getD {}

theorem enforces_half_second : tracks3.Enforces 3 SO_RCVTIMEO ⟨0, 500000⟩ := by
  have valid : timeval.Valid ⟨0, 500000⟩ := by decide
  exact (enforces_iff (s := tracks3) rfl (.inl rfl) valid).mpr (by decide)

/-- A receive timeout of one second is armed as one of 100 milliseconds, and no timeout as one of none. -/
theorem not_enforces : ¬ tracks3.Enforces 3 SO_RCVTIMEO ⟨1, 0⟩ ∧ ¬ tracks3.Enforces 3 SO_RCVTIMEO ⟨0, 0⟩ := by
  constructor
  · rintro ⟨_, _, _, called, _, there, own, _⟩
    cases called
    cases there
    exact absurd (own .read rfl) (by decide)
  · rintro ⟨_, _, _, called, _, there, own, _⟩
    cases called
    cases there
    exact absurd (own .read rfl) (by decide)

end Process
end Sylar
