import Sylar.Lib.CInt
import Sylar.TimerStep

/-! `sleep`, `usleep` and `nanosleep` of `hook.cc`. -/

namespace Sylar
open CInt

variable {ω : Type}

/-- The call of `schedule` to which the timer of a sleep is bound. -/
structure Wakeup where
  fiber : Nat
  thread : Int := -1
  deriving DecidableEq, Repr

/-- What a hooked sleep does before the fiber gives up its thread: it hands the call to the system,
it calls the timer manager, or it meets a signed overflow. -/
inductive Sleep (ω : Type)
  | system
  | timer (op : TimerOp Wakeup ω)
  | undefined

structure timespec where
  tv_sec : Int64
  tv_nsec : Int64
  deriving DecidableEq, Repr

def sleep (t_hook_enable : Bool) (seconds : UInt32) (fiber : Nat) (timer : Ptr) (now : UInt64) : Sleep ω :=
  if !t_hook_enable then .system
  else .timer (.addTimer timer (seconds * 1000).toUInt64 (some (.plain ⟨fiber, -1⟩)) false now)

def usleep (t_hook_enable : Bool) (usec : UInt32) (fiber : Nat) (timer : Ptr) (now : UInt64) : Sleep ω :=
  if !t_hook_enable then .system
  else .timer (.addTimer timer (usec / 1000).toUInt64 (some (.plain ⟨fiber, -1⟩)) false now)

/-- The value of `req->tv_sec *1000+req->tv_nsec/1000/1000`. -/
def nanosleepMs (req : timespec) : Option Int64 := do
  let ms ← long (req.tv_sec.toInt * 1000)
  long (ms.toInt + (req.tv_nsec.toInt.tdiv 1000).tdiv 1000)

def nanosleep (t_hook_enable : Bool) (req : timespec) (fiber : Nat) (timer : Ptr) (now : UInt64) : Sleep ω :=
  if !t_hook_enable then .system
  else
    match nanosleepMs req with
    | none => .undefined
    | some ms =>
      let timeout_ms : Int32 := ms.toInt32
      .timer (.addTimer timer (uint64 timeout_ms) (some (.plain { fiber := fiber })) false now)

/-- The call arms a timer, and with a number of milliseconds that is not below `ns` nanoseconds. -/
def Sleep.Lasts (call : Sleep ω) (ns : Nat) : Prop :=
  ∃ timer ms cb now, call = .timer (.addTimer timer ms cb false now) ∧ ns ≤ ms.toNat * 1000000

/-- A time span that the specification of `nanosleep` allows. -/
def timespec.Valid (req : timespec) : Prop :=
  0 ≤ req.tv_sec.toInt ∧ 0 ≤ req.tv_nsec.toInt ∧ req.tv_nsec.toInt < 1000000000

instance timespec.decidableValid (req : timespec) : Decidable req.Valid := inferInstanceAs (Decidable (_ ∧ _))

def timespec.ns (req : timespec) : Nat := req.tv_sec.toInt.toNat * 1000000000 + req.tv_nsec.toInt.toNat

/-- The whole milliseconds of a time span. -/
def timespec.ms (req : timespec) : Nat := req.tv_sec.toInt.toNat * 1000 + req.tv_nsec.toInt.toNat / 1000000

theorem Sleep.lasts_timer (timer : Ptr) (ms : UInt64) (cb : Option (Callback Wakeup ω)) (now : UInt64) (ns : Nat) :
    (Sleep.timer (.addTimer timer ms cb false now)).Lasts ns ↔ ns ≤ ms.toNat * 1000000 := by
  constructor
  · rintro ⟨_, _, _, _, same, enough⟩
    cases same
    exact enough
  · exact fun enough => ⟨timer, ms, cb, now, rfl, enough⟩

theorem sleep_lasts_iff (seconds : UInt32) (fiber : Nat) (timer : Ptr) (now : UInt64) :
    (sleep (ω := ω) true seconds fiber timer now).Lasts (seconds.toNat * 1000000000) ↔
      seconds.toNat * 1000 < 2 ^ 32 := by
  have product : (seconds * 1000).toUInt64.toNat = seconds.toNat * 1000 % 2 ^ 32 := by
    rw [UInt32.toNat_toUInt64, UInt32.toNat_mul]
    rfl
  simp only [sleep, Bool.not_true, Bool.false_eq_true, if_false, Sleep.lasts_timer, product]
  omega

theorem usleep_lasts_iff (usec : UInt32) (fiber : Nat) (timer : Ptr) (now : UInt64) :
    (usleep (ω := ω) true usec fiber timer now).Lasts (usec.toNat * 1000) ↔ 1000 ∣ usec.toNat := by
  have quotient : (usec / 1000).toUInt64.toNat = usec.toNat / 1000 := by
    rw [UInt32.toNat_toUInt64, UInt32.toNat_div]
    rfl
  simp only [usleep, Bool.not_true, Bool.false_eq_true, if_false, Sleep.lasts_timer, quotient]
  omega

/-- The sum has a value as long as a `long` can hold it. -/
theorem nanosleepMs_cases {req : timespec} (valid : req.Valid) :
    req.ms < 2 ^ 63 ∧ (∃ ms, nanosleepMs req = some ms ∧ ms.toInt = req.ms) ∨
      2 ^ 63 ≤ req.ms ∧ nanosleepMs req = none := by
  obtain ⟨sec, nsecLower, nsecUpper⟩ := valid
  have quotient : (req.tv_nsec.toInt.tdiv 1000).tdiv 1000 = req.tv_nsec.toInt / 1000000 := by
    rw [Int.tdiv_eq_ediv_of_nonneg nsecLower, Int.tdiv_eq_ediv_of_nonneg (by omega)]
    omega
  have ms : (req.ms : Int) = req.tv_sec.toInt * 1000 + req.tv_nsec.toInt / 1000000 := by
    simp only [timespec.ms]
    omega
  rw [nanosleepMs, quotient]
  cases product : long (req.tv_sec.toInt * 1000) with
  | none =>
    have outside := long_eq_none_iff.mp product
    exact Or.inr ⟨by omega, rfl⟩
  | some n =>
    have value := long_eq_some_iff.mp product
    cases sum : long (n.toInt + req.tv_nsec.toInt / 1000000) with
    | none =>
      have outside := long_eq_none_iff.mp sum
      exact Or.inr ⟨by omega, by simpa using sum⟩
    | some total =>
      have value' := long_eq_some_iff.mp sum
      have bound := total.toInt_lt
      exact Or.inl ⟨by omega, total, by simpa using sum, by omega⟩

theorem nanosleep_lasts_iff {req : timespec} (valid : req.Valid) (fiber : Nat) (timer : Ptr) (now : UInt64) :
    (nanosleep (ω := ω) true req fiber timer now).Lasts req.ns ↔
      req.ms < 2 ^ 63 ∧
        (req.ms < 2 ^ 31 ∧ req.tv_nsec.toInt % 1000000 = 0 ∨ 2 ^ 31 ≤ req.ms % 2 ^ 32) := by
  have ns : (req.ns : Int) = req.ms * 1000000 + req.tv_nsec.toInt % 1000000 := by
    obtain ⟨sec, nsecLower, nsecUpper⟩ := valid
    simp only [timespec.ns, timespec.ms]
    omega
  rcases nanosleepMs_cases valid with ⟨fits, ms, some, value⟩ | ⟨overflow, none⟩
  · have narrowed := toNat_uint64 ms.toInt32
    rw [Int64.toInt_toInt32, value, Int.bmod_def] at narrowed
    simp only [nanosleep, Bool.not_true, Bool.false_eq_true, if_false, some, Sleep.lasts_timer]
    split at narrowed <;> omega
  · simp only [nanosleep, Bool.not_true, Bool.false_eq_true, if_false, none]
    refine iff_of_false ?_ (by omega)
    rintro ⟨_, _, _, _, same, _⟩
    cases same

/-- A hooked sleep arms a timer for at least the time asked for exactly if the number of
milliseconds is a whole one and comes through the types on its way to `addTimer`. -/
theorem sleeps_last_iff (seconds usec : UInt32) (req : timespec) (valid : req.Valid) (fiber : Nat) (timer : Ptr)
    (now : UInt64) :
    ((sleep (ω := ω) true seconds fiber timer now).Lasts (seconds.toNat * 1000000000) ↔
        seconds.toNat * 1000 < 2 ^ 32) ∧
      ((usleep (ω := ω) true usec fiber timer now).Lasts (usec.toNat * 1000) ↔ 1000 ∣ usec.toNat) ∧
      ((nanosleep (ω := ω) true req fiber timer now).Lasts req.ns ↔
        req.ms < 2 ^ 63 ∧
          (req.ms < 2 ^ 31 ∧ req.tv_nsec.toInt % 1000000 = 0 ∨ 2 ^ 31 ≤ req.ms % 2 ^ 32)) :=
  ⟨sleep_lasts_iff seconds fiber timer now, usleep_lasts_iff usec fiber timer now,
    nanosleep_lasts_iff valid fiber timer now⟩

theorem sleeps_last_one_second :
    (nanosleep (ω := Unit) true ⟨1, 500000000⟩ 7 16 10).Lasts 1500000000 :=
  (sleeps_last_iff 1 1000 ⟨1, 500000000⟩ (by decide) 7 16 10).2.2.mpr (by decide)

/-- Products beyond 32 bits, and times below one millisecond. -/
theorem not_sleeps_last :
    ¬ (sleep (ω := Unit) true 4294968 7 16 10).Lasts (4294968 * 1000000000) ∧
      ¬ (usleep (ω := Unit) true 1 7 16 10).Lasts 1000 ∧
      ¬ (nanosleep (ω := Unit) true ⟨0, 1⟩ 7 16 10).Lasts 1 ∧
      ¬ (nanosleep (ω := Unit) true ⟨4294968, 0⟩ 7 16 10).Lasts (4294968 * 1000000000) := by
  refine ⟨?_, ?_, ?_, ?_⟩
  all_goals
    rintro ⟨_, _, _, _, same, enough⟩
    cases same
    revert enough
    decide

end Sylar
