import Sylar.FdManager

/-! The hooked calls that make and close descriptors and that set or read `O_NONBLOCK`, and the branch
that `do_io` takes. -/

namespace Sylar.Process

variable (refuses : BitVec 32 → Bool)

/-- The context is shared: a write through the pointer changes the one in `m_datas`. -/
def setCtx (s : Process) (fd : Int) (ctx : FdCtx) : Process :=
  { s with m_datas := s.m_datas.set fd.toNat (some ctx) }

def socket (s : Process) (t_hook_enable : Bool) (type : BitVec 32) (fd : Int) : Option Process := do
  let kernel ← s.kernel.socket type fd
  if t_hook_enable then
    let (_, s) ← { s with kernel := kernel }.getCreate refuses fd
    return s
  else return { s with kernel := kernel }

def accept (s : Process) (fd : Int) : Option Process := do
  let kernel ← s.kernel.accept fd
  let (_, s) ← { s with kernel := kernel }.getCreate refuses fd
  return s

def close (s : Process) (t_hook_enable : Bool) (fd : Int) : Option Process :=
  if t_hook_enable then do
    match ← s.get fd with
    | some _ =>
      let s ← s.del fd
      return { s with kernel := s.kernel.close fd }
    | none => return { s with kernel := s.kernel.close fd }
  else some { s with kernel := s.kernel.close fd }

/-- `fcntl(fd, F_SETFL, arg)`. -/
def setfl (s : Process) (fd : Int) (arg : BitVec 32) : Option (Int × Process) := do
  match ← s.get fd with
  | some ctx =>
    if ctx.m_isClosed ∨ ¬ ctx.m_isSocket then
      let (rt, kernel) := s.kernel.setfl refuses fd arg
      return (rt, { s with kernel := kernel })
    else
      let s := s.setCtx fd { ctx with m_userNonblock := nonblock arg }
      let arg := if ctx.m_sysNonblock then arg ||| O_NONBLOCK else arg &&& ~~~ O_NONBLOCK
      let (rt, kernel) := s.kernel.setfl refuses fd arg
      return (rt, { s with kernel := kernel })
  | none =>
    let (rt, kernel) := s.kernel.setfl refuses fd arg
    return (rt, { s with kernel := kernel })

/-- `fcntl(fd, F_GETFL)`. -/
def getfl (s : Process) (fd : Int) : Option (BitVec 32) := do
  let arg := s.kernel.getfl fd
  match ← s.get fd with
  | some ctx =>
    if ctx.m_isClosed ∨ ¬ ctx.m_isSocket then return arg
    else if ctx.m_userNonblock then return arg ||| O_NONBLOCK
    else return arg &&& ~~~ O_NONBLOCK
  | none => return arg

/-- `ioctl(fd, FIONBIO, &v)`. -/
def fionbio (s : Process) (fd : Int) (v : BitVec 32) : Option (Int × Process) := do
  match ← s.get fd with
  | some ctx =>
    if ctx.m_isClosed ∨ ¬ ctx.m_isSocket then
      let (rt, kernel) := s.kernel.fionbio fd v
      return (rt, { s with kernel := kernel })
    else
      let s := s.setCtx fd { ctx with m_userNonblock := v ≠ 0 }
      let (rt, kernel) := s.kernel.fionbio fd v
      return (rt, { s with kernel := kernel })
  | none =>
    let (rt, kernel) := s.kernel.fionbio fd v
    return (rt, { s with kernel := kernel })

/-- What `do_io` does with a call: it hands it to the system as it is, it fails with `EBADF`, or it
waits in the fiber until the call would not block. -/
inductive IoPath
  | passThrough
  | EBADF
  | wait
  deriving DecidableEq, Repr

def do_io (s : Process) (t_hook_enable : Bool) (fd : Int) : Option IoPath :=
  if t_hook_enable then do
    match ← s.get fd with
    | some ctx =>
      if ctx.m_isClosed then return .EBADF
      else if ¬ ctx.m_isSocket ∨ ctx.m_userNonblock then return .passThrough
      else return .wait
    | none => return .passThrough
  else some .passThrough

/-- The calls, each with the descriptor that it returns or works on. `open_` stands for every other
call that makes a descriptor; a call that fails changes nothing. -/
inductive Op
  | socket (t_hook_enable : Bool) (type : BitVec 32) (fd : Int)
  | accept (fd : Int)
  | open_ (flags : BitVec 32) (fd : Int)
  | close (t_hook_enable : Bool) (fd : Int)
  | setfl (fd : Int) (arg : BitVec 32)
  | fionbio (fd : Int) (v : BitVec 32)
  deriving DecidableEq, Repr

def Op.fd : Op → Int
  | .socket _ _ fd | .accept fd | .open_ _ fd | .close _ fd | .setfl fd _ | .fionbio fd _ => fd

def act (s : Process) : Op → Option Process
  | .socket t_hook_enable type fd => s.socket refuses t_hook_enable type fd
  | .accept fd => s.accept refuses fd
  | .open_ flags fd =>
    (s.kernel.open_ fd { isSocket := false, flags := flags }).map fun kernel => { s with kernel := kernel }
  | .close t_hook_enable fd => s.close t_hook_enable fd
  | .setfl fd arg => (s.setfl refuses fd arg).map (·.2)
  | .fionbio fd v => (s.fionbio fd v).map (·.2)

def Step (s : Process) (l : Op) (t : Process) : Prop := s.act refuses l = some t

/-- The same calls without the hooks. -/
def plain (k : Kernel) : Op → Option Kernel
  | .socket _ type fd => k.socket type fd
  | .accept fd => k.accept fd
  | .open_ flags fd => k.open_ fd { isSocket := false, flags := flags }
  | .close _ fd => some (k.close fd)
  | .setfl fd arg => some (k.setfl refuses fd arg).2
  | .fionbio fd v => some (k.fionbio fd v).2

/-- `FdManager` has a context for the socket. -/
def Tracks (s : Process) (fd : Int) (file : KernelFile) (ctx : FdCtx) : Prop :=
  s.kernel fd = some file ∧ file.isSocket ∧ s.get fd = some (some ctx)

/-- The kernel has `O_NONBLOCK` set for every socket with a context. -/
def Nonblocking (s : Process) : Prop := ∀ fd file ctx, s.Tracks fd file ctx → nonblock file.flags

end Sylar.Process
