import Mathlib.Logic.Function.Basic
import Sylar.Lib.Machine

/-! The open files of the process as the kernel sees them, and `FdManager` with its contexts. -/

namespace Sylar

def O_RDWR : BitVec 32 := 0x2

def O_NONBLOCK : BitVec 32 := 0x800

def SOCK_NONBLOCK : BitVec 32 := O_NONBLOCK

/-- What `F_SETFL` changes: `O_APPEND`, `O_NONBLOCK`, `O_ASYNC`, `O_DIRECT` and `O_NOATIME`. -/
def SETFL_MASK : BitVec 32 := 0x46C00

/-- The flags have `O_NONBLOCK`. -/
def nonblock (flags : BitVec 32) : Bool := flags &&& O_NONBLOCK ≠ 0

structure KernelFile where
  isSocket : Bool
  flags : BitVec 32
  deriving DecidableEq, Repr

/-- The open files by their descriptors. -/
abbrev Kernel := Int → Option KernelFile

namespace Kernel

/-- The kernel can refuse `F_SETFL` for the sake of a flag other than `O_NONBLOCK`, as it does with
`O_DIRECT` on a socket. -/
def refused (refuses : BitVec 32 → Bool) (arg : BitVec 32) : Bool :=
  let others := arg &&& (SETFL_MASK &&& ~~~ O_NONBLOCK)
  others ≠ 0 && refuses others

/-- `fcntl(fd, F_SETFL, arg)`. -/
def setfl (refuses : BitVec 32 → Bool) (k : Kernel) (fd : Int) (arg : BitVec 32) : Int × Kernel :=
  match k fd with
  | none => (-1, k)
  | some file =>
    if refused refuses arg then (-1, k)
    else (0, Function.update k fd (some { file with flags := (file.flags &&& ~~~ SETFL_MASK) ||| (arg &&& SETFL_MASK) }))

/-- `fcntl(fd, F_GETFL)`. -/
def getfl (k : Kernel) (fd : Int) : BitVec 32 :=
  match k fd with
  | none => -1
  | some file => file.flags

/-- `ioctl(fd, FIONBIO, &v)`. -/
def fionbio (k : Kernel) (fd : Int) (v : BitVec 32) : Int × Kernel :=
  match k fd with
  | none => (-1, k)
  | some file =>
    let flags := if v ≠ 0 then file.flags ||| O_NONBLOCK else file.flags &&& ~~~ O_NONBLOCK
    (0, Function.update k fd (some { file with flags := flags }))

/-- A new file gets a descriptor that is free. -/
def open_ (k : Kernel) (fd : Int) (file : KernelFile) : Option Kernel :=
  if 0 ≤ fd ∧ k fd = none then some (Function.update k fd (some file)) else none

def socket (k : Kernel) (type : BitVec 32) (fd : Int) : Option Kernel :=
  k.open_ fd { isSocket := true, flags := O_RDWR ||| (type &&& SOCK_NONBLOCK) }

/-- The socket that `accept` returns is blocking, whatever the one that listens is. -/
def accept (k : Kernel) (fd : Int) : Option Kernel := k.open_ fd { isSocket := true, flags := O_RDWR }

def close (k : Kernel) (fd : Int) : Kernel := Function.update k fd none

end Kernel

/-- `FdCtx`. -/
structure FdCtx where
  m_isInit : Bool := false
  m_isSocket : Bool := false
  m_sysNonblock : Bool := false
  m_userNonblock : Bool := false
  m_isClosed : Bool := false
  m_recvTimeout : UInt64 := -1
  m_sendTimeout : UInt64 := -1
  deriving DecidableEq, Repr

/-- `new FdCtx(fd)`, that is `FdCtx::init`. -/
def FdCtx.init (refuses : BitVec 32 → Bool) (k : Kernel) (fd : Int) : FdCtx × Kernel :=
  match k fd with
  | none => ({}, k)
  | some file =>
    if file.isSocket then
      let flags := k.getfl fd
      if ¬ nonblock flags then
        ({ m_isInit := true, m_isSocket := true, m_sysNonblock := true }, (k.setfl refuses fd (flags ||| O_NONBLOCK)).2)
      else ({ m_isInit := true, m_isSocket := true }, k)
    else ({ m_isInit := true }, k)

/-- The kernel and the vector `m_datas` of `FdManager`, which is made with 64 places. -/
structure Process where
  kernel : Kernel := fun _ => none
  m_datas : List (Option FdCtx) := List.replicate 64 none

namespace Process

/-- `FdManager::get(fd)`. An access outside of the vector has no defined result. -/
def get (s : Process) (fd : Int) : Option (Option FdCtx) :=
  if (s.m_datas.length : Int) ≤ fd then some none
  else if fd < 0 then none
  else s.m_datas[fd.toNat]?

/-- `FdManager::get(fd, true)`: a context is made unless there is one. -/
def getCreate (refuses : BitVec 32 → Bool) (s : Process) (fd : Int) : Option (FdCtx × Process) := do
  match ← s.get fd with
  | some ctx => return (ctx, s)
  | none =>
    if (s.m_datas.length : Int) ≤ fd then none
    else
      let (ctx, kernel) := FdCtx.init refuses s.kernel fd
      return (ctx, { kernel := kernel, m_datas := s.m_datas.set fd.toNat (some ctx) })

/-- `FdManager::del`. -/
def del (s : Process) (fd : Int) : Option Process :=
  if (s.m_datas.length : Int) ≤ fd then some s
  else if fd < 0 then none
  else some { s with m_datas := s.m_datas.set fd.toNat none }

end Process

/-! The bit of `O_NONBLOCK` in the flags. -/

theorem nonblock_eq (flags : BitVec 32) : nonblock flags = flags.getLsbD 11 := by
  have bit : O_NONBLOCK = BitVec.twoPow 32 11 := by decide
  rw [nonblock, bit, BitVec.and_twoPow]
  cases set : flags.getLsbD 11
  · rfl
  · decide

@[simp] theorem nonblock_or (flags other : BitVec 32) :
    nonblock (flags ||| other) = (nonblock flags || nonblock other) := by
  simp [nonblock_eq]

@[simp] theorem nonblock_and (flags other : BitVec 32) :
    nonblock (flags &&& other) = (nonblock flags && nonblock other) := by
  simp [nonblock_eq]

@[simp] theorem nonblock_not (flags : BitVec 32) : nonblock (~~~ flags) = ! nonblock flags := by
  simp [nonblock_eq]

@[simp] theorem nonblock_O_NONBLOCK : nonblock O_NONBLOCK = true := by decide

@[simp] theorem nonblock_O_RDWR : nonblock O_RDWR = false := by decide

@[simp] theorem nonblock_SETFL_MASK : nonblock SETFL_MASK = true := by decide

@[simp] theorem nonblock_SOCK_NONBLOCK : nonblock SOCK_NONBLOCK = true := by decide

/-- Whether the kernel refuses a call does not depend on `O_NONBLOCK`. -/
theorem Kernel.refused_or (refuses : BitVec 32 → Bool) (arg : BitVec 32) :
    refused refuses (arg ||| O_NONBLOCK) = refused refuses arg := by
  have same : (arg ||| O_NONBLOCK) &&& (SETFL_MASK &&& ~~~ O_NONBLOCK) = arg &&& (SETFL_MASK &&& ~~~ O_NONBLOCK) := by
    refine BitVec.eq_of_getLsbD_eq fun i inside => ?_
    simp only [BitVec.getLsbD_and, BitVec.getLsbD_or, BitVec.getLsbD_not]
    cases O_NONBLOCK.getLsbD i <;> simp [inside]
  rw [refused, refused, same]

theorem Kernel.refused_and_not (refuses : BitVec 32 → Bool) (arg : BitVec 32) :
    refused refuses (arg &&& ~~~ O_NONBLOCK) = refused refuses arg := by
  have same : (arg &&& ~~~ O_NONBLOCK) &&& (SETFL_MASK &&& ~~~ O_NONBLOCK) =
      arg &&& (SETFL_MASK &&& ~~~ O_NONBLOCK) := by
    refine BitVec.eq_of_getLsbD_eq fun i inside => ?_
    simp only [BitVec.getLsbD_and, BitVec.getLsbD_not]
    cases O_NONBLOCK.getLsbD i <;> simp [inside]
  rw [refused, refused, same]

end Sylar
