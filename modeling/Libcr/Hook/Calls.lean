import Mathlib.Data.Stream.Init
import Libcr.Foundations.Loops
import Libcr.Scheduler.Poll

/-!
# The hooked input and output functions

`hook_sys_call.c`, as far as a task with hooks on runs through it when it reads,
writes or accepts: the table of tracked descriptors, `wait_io_ready`, and the retry
loops around the native functions.

A call is seen from its own coroutine. What comes from outside is given by two
streams: the answers of the native functions, and what every wait in `poll_inner`
ends with, including what other coroutines have done to the thread meanwhile. The
deadline is kept by `fix_coroutine_timeout` as in the scheduler. The log records the
native calls and the waits; no function reads it.

The main coroutine has no task, and its calls go to the native functions as those of
a task with hooks off do. Of `rpchook_t` the fields that these functions use are
kept.
-/

namespace Libcr

/-- `struct timeval`. -/
structure Timeval where
  tvSec : Int
  tvUsec : Int
  deriving DecidableEq

/-- The number of milliseconds the hooked functions compute from it. -/
def Timeval.ms (tv : Timeval) : Int := toInt32 (tv.tvSec * 1000 + tv.tvUsec.tdiv 1000)

/-- `rpchook_t`. -/
structure RpcHook where
  userFlag : BitVec 32
  readTimeout : Timeval
  writeTimeout : Timeval
  deriving DecidableEq

/-- The length of `gSocketFd`. -/
def kSocketFds : Int := 102400

def oNonblock : BitVec 32 := 0x800

/-- The native functions that move bytes. -/
inductive Transfer
  | read
  | recv
  | write
  | send
  deriving DecidableEq

/-- A call of a native function. A transfer is given the offset into the buffer of the
caller and the length. -/
inductive NativeCall
  | transfer (f : Transfer) (fd : Fd) (offset length : Int)
  | socket (nonblock : Bool)
  | accept (fd : Fd)
  | connect (fd : Fd)
  | select (nfds : Nat)
  | close (fd : Fd)
  | getfl (fd : Fd)
  | setfl (fd : Fd) (flags : BitVec 32)
  deriving DecidableEq

/-- What a native function returns, and the `errno` it sets when that is negative. -/
structure NativeAnswer where
  ret : Int
  errno : Errno

/-- What a `poll_inner` call meets: the cached time at its beginning, and if it does not
find the deadline expired, its result and what `errno` and the table of descriptors are
after it. -/
structure WaitAnswer where
  now : Nat
  ret : Int
  errno : Errno
  table : Fd → Option RpcHook

/-- What a call shows. -/
inductive IoObs
  /-- A native function was called. -/
  | native (call : NativeCall) (ret : Int)
  /-- `poll_inner` was called; `expired` says that `fix_coroutine_timeout` found the
  deadline expired. -/
  | waited (fds : List PollFd) (timeout : Int) (expired : Bool) (ret : Int)
  deriving DecidableEq

/-- The task of the calling coroutine, and what its calls read and write. -/
structure HookSys where
  task : Task
  table : Fd → Option RpcHook
  errno : Errno
  natives : Stream' NativeAnswer
  waits : Stream' WaitAnswer
  log : List IoObs

namespace HookSys

/-- `is_enable_sys_hook`. -/
def isEnableSysHook (st : HookSys) : Bool := st.task.attr.enableSysHook

/-- `get_by_fd`. -/
def getByFd (st : HookSys) (fd : Fd) : Option RpcHook :=
  if fd > -1 ∧ fd < kSocketFds then st.table fd else none

/-- `alloc_by_fd`. -/
def allocByFd (st : HookSys) (fd : Fd) : HookSys :=
  if fd > -1 ∧ fd < kSocketFds then
    { st with
      table := Function.update st.table fd
        (some { userFlag := 0, readTimeout := ⟨0, 1000⟩, writeTimeout := ⟨0, 1000⟩ }) }
  else st

/-- `free_by_fd`. -/
def freeByFd (st : HookSys) (fd : Fd) : HookSys :=
  if fd > -1 ∧ fd < kSocketFds then { st with table := Function.update st.table fd none }
  else st

/-- `lp->user_flag = flags`, where there is an `lp`. -/
def setUserFlag (st : HookSys) (fd : Fd) (flags : BitVec 32) : HookSys :=
  match st.getByFd fd with
  | none => st
  | some lp =>
      { st with table := Function.update st.table fd (some { lp with userFlag := flags }) }

/-- A call of a native function. -/
def native (st : HookSys) (call : NativeCall) : Int × HookSys :=
  let a := st.natives.head
  (a.ret, { st with
    natives := st.natives.tail
    errno := if a.ret < 0 then a.errno else st.errno
    log := st.log ++ [.native call a.ret] })

/-- `fcntl(fd, F_GETFL, 0)`. -/
def fcntlGetfl (st : HookSys) (fd : Fd) : Int × HookSys :=
  if fd < 0 then (-1, st) else st.native (.getfl fd)

/-- `fcntl(fd, F_SETFL, param)`. -/
def fcntlSetfl (st : HookSys) (fd : Fd) (param : BitVec 32) : Int × HookSys :=
  if fd < 0 then (-1, st)
  else
    let lp := st.getByFd fd
    let flag := if st.isEnableSysHook ∧ lp.isSome then param ||| oNonblock else param
    let r := st.native (.setfl fd flag)
    if r.1 = 0 then (r.1, r.2.setUserFlag fd param) else r

/-- `close`. -/
def close (st : HookSys) (fd : Fd) : Int × HookSys :=
  if ¬ st.isEnableSysHook then st.native (.close fd)
  else
    let st := if (st.getByFd fd).isSome then st.freeByFd fd else st
    st.native (.close fd)

/-- `poll_inner` as its caller sees it. -/
def pollInner (st : HookSys) (fds : List PollFd) (timeout : Int) : Int × HookSys :=
  let w := st.waits.head
  let r := fixCoroutineTimeout st.task w.now timeout
  let st := { st with task := r.1, waits := st.waits.tail }
  if r.2.2 then (-1, { st with log := st.log ++ [.waited fds timeout true (-1)] })
  else
    (w.ret, { st with
      errno := w.errno
      table := w.table
      log := st.log ++ [.waited fds timeout false w.ret] })

/-- `wait_io_ready`, called with hooks on, so that its `poll` is `poll_inner`. -/
def waitIoReady (st : HookSys) (fd : Fd) (events : BitVec 16) (timeout : Int) :
    Int × HookSys :=
  let r := st.pollInner [⟨fd, events⟩] timeout
  if r.1 = 0 ∧ r.2.task.timeout then
    (-1, { (r.2.close fd).2 with errno := Errno.ebadf })
  else (1, r.2)

end HookSys

/-- A call that is still in its retry loop, with the local variables of the loop. -/
structure Progress where
  n : Int
  ret : Int
  st : HookSys

/-- Where a call is after some turns of its loop: still in it, or returned. -/
abbrev Outcome := Progress ⊕ (Int × HookSys)

/-- The log of a call so far. -/
def Outcome.log (o : Outcome) : List IoObs := Sum.elim (fun p => p.st.log) (fun r => r.2.log) o

namespace HookSys

/-- One turn of the loop of `read` and `recv`. The byte count is never negative, so its
comparison with a `size_t` is that of the numbers; `EWOULDBLOCK` is `EAGAIN`. -/
def receiveTurn (f : Transfer) (fd : Fd) (nbyte : Nat) (timeout : Int) (p : Progress) :
    Outcome :=
  let ready := p.st.waitIoReady fd (pollIn ||| pollErr ||| pollHup) timeout
  if ready.1 ≤ 0 then .inr (if p.n = 0 then ready.1 else p.n, ready.2)
  else
    let r := ready.2.native (.transfer f fd p.n (nbyte - p.n))
    if r.1 < 0 ∧ r.2.errno ≠ Errno.eagain ∨ r.1 = 0 then .inr (p.n, r.2)
    else
      let n := if r.1 < 0 then p.n else p.n + r.1
      if n ≤ 0 ∧ n < nbyte then .inl { p with n := n, st := r.2 } else .inr (n, r.2)

/-- `read` and `recv` but for the native function. -/
def receive (f : Transfer) (st : HookSys) (fd : Fd) (nbyte fuel : Nat) : Outcome :=
  if ¬ st.isEnableSysHook then .inr (st.native (.transfer f fd 0 nbyte))
  else
    match st.getByFd fd with
    | none => .inr (st.native (.transfer f fd 0 nbyte))
    | some lp => loop (receiveTurn f fd nbyte lp.readTimeout.ms) fuel ⟨0, 0, st⟩

/-- One turn of the loop of `write` and `send`. -/
def transmitTurn (f : Transfer) (fd : Fd) (nbyte : Nat) (timeout : Int) (p : Progress) :
    Outcome :=
  if p.n < nbyte then
    let ready := p.st.waitIoReady fd (pollOut ||| pollErr ||| pollHup) timeout
    if ready.1 ≤ 0 then .inr (if p.n = 0 then ready.1 else p.n, ready.2)
    else
      let r := ready.2.native (.transfer f fd p.n (nbyte - p.n))
      if r.1 < 0 ∧ r.2.errno ≠ Errno.eagain ∨ r.1 = 0 then
        .inr (if p.n = 0 then r.1 else p.n, r.2)
      else .inl { n := if r.1 < 0 then p.n else p.n + r.1, ret := r.1, st := r.2 }
  else .inr (if p.ret ≤ 0 ∧ p.n = 0 then p.ret else p.n, p.st)

/-- `write` and `send` but for the native function. -/
def transmit (f : Transfer) (st : HookSys) (fd : Fd) (nbyte fuel : Nat) : Outcome :=
  if ¬ st.isEnableSysHook then .inr (st.native (.transfer f fd 0 nbyte))
  else
    match st.getByFd fd with
    | none => .inr (st.native (.transfer f fd 0 nbyte))
    | some lp =>
        let r := st.native (.transfer f fd 0 nbyte)
        if r.1 = 0 then .inr r
        else
          loop (transmitTurn f fd nbyte lp.writeTimeout.ms) fuel
            ⟨if r.1 > 0 then r.1 else 0, r.1, r.2⟩

def read : HookSys → Fd → Nat → Nat → Outcome := receive .read

def recv : HookSys → Fd → Nat → Nat → Outcome := receive .recv

def write : HookSys → Fd → Nat → Nat → Outcome := transmit .write

def send : HookSys → Fd → Nat → Nat → Outcome := transmit .send

/-- `accept` once the native function has returned the descriptor `fd`. -/
def accepted (st : HookSys) (fd : Fd) : Int × HookSys :=
  let st := st.allocByFd fd
  let current := st.fcntlGetfl fd
  let ret := current.2.fcntlSetfl fd (BitVec.ofInt 32 current.1 ||| oNonblock)
  if ret.1 = 0 then (fd, ret.2.setUserFlag fd (BitVec.ofInt 32 current.1)) else (fd, ret.2)

/-- One turn of the loop of `accept`; `p.ret` is the result of the native function. -/
def acceptTurn (listenFd : Fd) (p : Progress) : Outcome :=
  if p.ret < 0 then
    if p.st.errno = Errno.eagain then
      let r := p.st.pollInner [⟨listenFd, pollIn ||| pollErr ||| pollHup⟩] (-1)
      if r.1 ≤ 0 ∧ r.2.task.timeout then
        .inr (-1, { (r.2.close listenFd).2 with errno := Errno.ebadf })
      else
        let a := r.2.native (.accept listenFd)
        .inl { p with ret := a.1, st := a.2 }
    else .inr (p.ret, p.st)
  else .inr (p.st.accepted p.ret)

/-- `accept`. -/
def accept (st : HookSys) (listenFd : Fd) (fuel : Nat) : Outcome :=
  if ¬ st.isEnableSysHook then .inr (st.native (.accept listenFd))
  else
    let st :=
      if (st.getByFd listenFd).isNone then
        let st := st.allocByFd listenFd
        let flags := st.fcntlGetfl listenFd
        (flags.2.fcntlSetfl listenFd (BitVec.ofInt 32 flags.1 ||| oNonblock)).2
      else st
    let a := st.native (.accept listenFd)
    loop (acceptTurn listenFd) fuel ⟨0, a.1, a.2⟩

end HookSys

/-- The hooked functions with a retry loop. -/
inductive IoCall
  | read (fd : Fd) (nbyte : Nat)
  | recv (fd : Fd) (nbyte : Nat)
  | write (fd : Fd) (nbyte : Nat)
  | send (fd : Fd) (nbyte : Nat)
  | accept (fd : Fd)
  deriving DecidableEq

/-- The descriptor a call is about. -/
def IoCall.fd : IoCall → Fd
  | .read fd _ | .recv fd _ | .write fd _ | .send fd _ | .accept fd => fd

/-- At most `fuel` turns of the loop of a call. -/
def HookSys.call (st : HookSys) (fuel : Nat) : IoCall → Outcome
  | .read fd nbyte => st.read fd nbyte fuel
  | .recv fd nbyte => st.recv fd nbyte fuel
  | .write fd nbyte => st.write fd nbyte fuel
  | .send fd nbyte => st.send fd nbyte fuel
  | .accept fd => st.accept fd fuel

end Libcr
