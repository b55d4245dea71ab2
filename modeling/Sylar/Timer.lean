import Mathlib.Logic.Function.Basic
import Sylar.Lib.Machine
import Sylar.Lib.OrderedSet

/-! The timers of `timer.cc`: `Timer`, its comparator, and `TimerManager` with its ordered
set of shared pointers. Clock readings are arguments, and so are the addresses that `new`
returns, since the comparator falls back on them. -/

namespace Sylar

/-- `Timer::ptr`, as the address of the timer; 0 is the null pointer. -/
abbrev Ptr := Nat

/-- A non-empty `std::function<void()>`: a caller's function, or `OnTimer` bound to a
weak condition and a function by `addConditionTimer`. -/
inductive Callback (κ ω : Type)
  | plain (f : κ)
  | onTimer (weak_cond : ω) (cb : Option κ)
  deriving DecidableEq, Repr

/-- An empty `m_cb` is `none`. Every timer here belongs to the one manager. -/
structure Timer (κ ω : Type) where
  m_recurring : Bool := false
  m_ms : UInt64 := 0
  m_next : UInt64 := 0
  m_cb : Option (Callback κ ω) := none
  deriving DecidableEq, Repr

/-- The timers in memory. -/
abbrev Heap (κ ω : Type) := Ptr → Option (Timer κ ω)

/-- What the C++ standard leaves undefined: use of a pointer to no timer, `*begin()` of an
empty set, `erase(end())`, and a write to the key `m_next` of a timer that the set contains. -/
inductive Fault
  | dangling
  | derefEnd
  | eraseEnd
  | keyChanged
  deriving DecidableEq, Repr

variable {κ ω : Type}

def Heap.next (heap : Heap κ ω) (p : Ptr) : UInt64 :=
  match heap p with
  | some timer => timer.m_next
  | none => 0

def Timer.Comparator (heap : Heap κ ω) (lhs rhs : Ptr) : Bool :=
  if lhs = 0 ∧ rhs = 0 then false
  else if lhs = 0 then true
  else if rhs = 0 then false
  else if heap.next lhs < heap.next rhs then true
  else if heap.next rhs < heap.next lhs then false
  else decide (lhs < rhs)

/-- The members of `TimerManager`, and the heap that its pointers refer to. -/
structure TimerManager (κ ω : Type) where
  m_timers : List Ptr
  m_tickled : Bool
  m_previouseTime : UInt64
  heap : Heap κ ω

namespace TimerManager

def deref (m : TimerManager κ ω) (p : Ptr) : Except Fault (Timer κ ω) :=
  match m.heap p with
  | some timer => .ok timer
  | none => .error .dangling

/-- `*m_timers.begin()`. -/
def begin (m : TimerManager κ ω) : Except Fault (Timer κ ω) :=
  match m.m_timers.head? with
  | none => .error .derefEnd
  | some first => m.deref first

def write (m : TimerManager κ ω) (p : Ptr) (timer : Timer κ ω) : TimerManager κ ω :=
  { m with heap := Function.update m.heap p (some timer) }

/-- `m_next` is the set's key, so it may only be written outside the set. -/
def setNext (m : TimerManager κ ω) (p : Ptr) (next : UInt64) : Except Fault (TimerManager κ ω) :=
  if p ∈ m.m_timers then .error .keyChanged
  else do
    let timer ← m.deref p
    return m.write p { timer with m_next := next }

def find (m : TimerManager κ ω) (p : Ptr) : Nat :=
  OrderedSet.find (Timer.Comparator m.heap) m.m_timers p

def erase (m : TimerManager κ ω) (it : Nat) : Except Fault (TimerManager κ ω) :=
  match OrderedSet.erase m.m_timers it with
  | some timers => .ok { m with m_timers := timers }
  | none => .error .eraseEnd

def insert (m : TimerManager κ ω) (p : Ptr) : TimerManager κ ω :=
  { m with m_timers := (OrderedSet.insert (Timer.Comparator m.heap) m.m_timers p).1 }

/-- `addTimer(Timer::ptr, WriteLock&)`. The flag says whether `onTimerInsertedAtfront`
is called after the lock has been released. -/
def addTimerLocked (m : TimerManager κ ω) (val : Ptr) : Bool × TimerManager κ ω :=
  let it := (OrderedSet.insert (Timer.Comparator m.heap) m.m_timers val).2
  let at_front := it == 0 && !m.m_tickled
  (at_front, { m.insert val with m_tickled := m.m_tickled || at_front })

def addTimer (m : TimerManager κ ω) (timer : Ptr) (ms : UInt64) (cb : Option (Callback κ ω))
    (recuring : Bool) (now : UInt64) : Bool × TimerManager κ ω :=
  (m.write timer { m_recurring := recuring, m_ms := ms, m_next := now + ms, m_cb := cb }).addTimerLocked timer

def addConditionTimer (m : TimerManager κ ω) (timer : Ptr) (ms : UInt64) (cb : Option κ)
    (weak_cond : ω) (recurring : Bool) (now : UInt64) : Bool × TimerManager κ ω :=
  m.addTimer timer ms (some (.onTimer weak_cond cb)) recurring now

def getNextTimer (m : TimerManager κ ω) (now_ms : UInt64) : Except Fault (UInt64 × TimerManager κ ω) :=
  let m := { m with m_tickled := false }
  match m.m_timers.head? with
  | none => .ok (~~~0, m)
  | some next => do
    let timer ← m.deref next
    return (if now_ms ≥ timer.m_next then 0 else timer.m_next - now_ms, m)

def detectClockRollover (m : TimerManager κ ω) (now_ms : UInt64) : Bool × TimerManager κ ω :=
  (decide (now_ms < m.m_previouseTime) && decide (now_ms < m.m_previouseTime - 60 * 60 * 1000),
    { m with m_previouseTime := now_ms })

/-- One round of the loop over `expired` in `listExpiredCb`. -/
def expireOne (now_ms : UInt64) (acc : List (Option (Callback κ ω)) × TimerManager κ ω) (p : Ptr) :
    Except Fault (List (Option (Callback κ ω)) × TimerManager κ ω) := do
  let timer ← acc.2.deref p
  let cbs := acc.1 ++ [timer.m_cb]
  if timer.m_recurring then
    let m ← acc.2.setNext p (now_ms + timer.m_ms)
    return (cbs, m.insert p)
  else
    return (cbs, acc.2.write p { timer with m_cb := none })

/-- The iterator after `lower_bound` and the loop that skips the timers due exactly now.
`now_timer` is the address of the timer built from `now_ms` for the search. -/
def expiredEnd (m : TimerManager κ ω) (rollover : Bool) (now_ms : UInt64) (now_timer : Ptr) : Nat :=
  let heap := Function.update m.heap now_timer (some { m_next := now_ms })
  let it := if rollover then m.m_timers.length
    else OrderedSet.lowerBound (Timer.Comparator heap) m.m_timers now_timer
  it + ((m.m_timers.drop it).takeWhile fun p => m.heap.next p == now_ms).length

/-- The test `!rollover && (*m_timers.begin())->m_next == now_ms`, which reads the first timer only
when there was no rollover. -/
def firstDueNow (m : TimerManager κ ω) (rollover : Bool) (now_ms : UInt64) : Except Fault Bool :=
  if rollover then .ok false else m.begin.map fun timer => timer.m_next == now_ms

/-- The part of `listExpiredCb` under the write lock. It returns `cbs`, the local vector
`expired` and the manager. -/
def listExpiredCbLocked (m : TimerManager κ ω) (now_ms : UInt64) (now_timer : Ptr)
    (cbs : List (Option (Callback κ ω))) :
    Except Fault (List (Option (Callback κ ω)) × List Ptr × TimerManager κ ω) := do
  let (rollover, m) := m.detectClockRollover now_ms
  let exactly ← m.firstDueNow rollover now_ms
  if exactly then return (cbs, [], m)
  else
    let it := m.expiredEnd rollover now_ms now_timer
    let expired := m.m_timers.take it
    let (cbs, m) ← expired.foldlM (expireOne now_ms) (cbs, { m with m_timers := m.m_timers.drop it })
    return (cbs, expired, m)

def listExpiredCb (m : TimerManager κ ω) (now_ms : UInt64) (now_timer : Ptr)
    (cbs : List (Option (Callback κ ω))) :
    Except Fault (List (Option (Callback κ ω)) × List Ptr × TimerManager κ ω) :=
  if m.m_timers.isEmpty then .ok (cbs, [], m)
  else m.listExpiredCbLocked now_ms now_timer cbs

end TimerManager

def Timer.cancel (m : TimerManager κ ω) (this : Ptr) : Except Fault (Bool × TimerManager κ ω) := do
  let timer ← m.deref this
  if timer.m_cb.isSome then
    let m := m.write this { timer with m_cb := none }
    let m ← m.erase (m.find this)
    return (true, m)
  else
    return (false, m)

/-- The test on the iterator is the source's own: a timer that is found is left alone. -/
def Timer.refresh (m : TimerManager κ ω) (this : Ptr) (now : UInt64) :
    Except Fault (Bool × TimerManager κ ω) := do
  let timer ← m.deref this
  if timer.m_cb.isNone then return (false, m)
  else
    let it := m.find this
    if it ≠ m.m_timers.length then return (false, m)
    else
      let m ← m.erase it
      let m ← m.setNext this (now + timer.m_ms)
      return (true, m.insert this)

/-- Returns the result, whether `onTimerInsertedAtfront` is called, and the manager. -/
def Timer.reset (m : TimerManager κ ω) (this : Ptr) (ms : UInt64) (from_now : Bool) (now : UInt64) :
    Except Fault (Bool × Bool × TimerManager κ ω) := do
  let timer ← m.deref this
  if ms == timer.m_ms && !from_now then return (true, false, m)
  else if timer.m_cb.isNone then return (false, false, m)
  else
    let it := m.find this
    if it = m.m_timers.length then return (false, false, m)
    else
      let m ← m.erase it
      let start := if from_now then now else timer.m_next - timer.m_ms
      let m := m.write this { timer with m_ms := ms }
      let m ← m.setNext this (start + ms)
      let (at_front, m) := m.addTimerLocked this
      return (true, at_front, m)

end Sylar
