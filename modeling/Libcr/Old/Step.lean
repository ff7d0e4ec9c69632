import Libcr.Old.State

/-!
# The functions of the old scheduler

`Spawn`, `Yield`, `Status`, `mainfunc`, `Resume`, `Run`, `Accept`, `Recv`, `Send`,
`CheckNetwork` and `Close` of `oldsrc/coroutine.cc`, which `oldsrc/hooks.cc` puts in the
place of `pthread_create`, `accept`, `recv`, `send` and `close`. A function that switches to
another context is cut there.

User code is not modelled: `main` and a coroutine in its function may call any of the
functions with any arguments, `Resume` and `Run` as well, and a coroutine may return.
`epoll_ctl` answers an addition with `EEXIST` when the descriptor is in the set and may fail
otherwise. Closing a descriptor takes it out of the set, unless a duplicate of it is open: then
the entry stays, until the last duplicate is closed.

A run is followed up to its first `Fault`: what the machine code does after an access outside
of a vector, through a null or deleted pointer or after a switch to a context that has been
left is not described.
-/

namespace Libcr

namespace Old

/-- The mask `Accept`, `Recv` or `Send` waits for. -/
def IoKind.mask : IoKind → BitVec 32
  | .accept => epollIn
  | .recv => epollIn
  | .send => epollOut

/-- What a native `accept`, `recv` or `send` answers: `EAGAIN` or `EWOULDBLOCK`, `EINTR`,
another error, or a descriptor or a number of bytes. -/
inductive Answer
  | again
  | intr
  | error
  | done (n : Nat)
  deriving DecidableEq

/-- The native functions move no more than they are asked to. -/
def Answer.fits (call : IoCall) : Answer → Bool
  | .done n => call.kind = .accept ∨ call.ret + n ≤ call.len.toNat
  | _ => true

/-- How `Accept`, `Recv` or `Send` goes on: to the label `swap`, to the native function, or
back to its caller. -/
inductive IoNext
  | wait (call : IoCall)
  | loop (call : IoCall)
  | back (call : IoCall) (value : Int)
  deriving DecidableEq

/-- The head of the loop of `Accept`, `Recv` or `Send`. `(ssize_t)len` is negative for a length
from 2^63 on. -/
def IoCall.head (call : IoCall) : IoNext :=
  if call.kind = .accept ∨ (call.ret : Int) < call.len.toInt then .loop call
  else .back call call.ret

/-- One turn of the loop of `Accept`, `Recv` or `Send`, with what it shows. -/
def IoCall.turn (call : IoCall) : Answer → List Obs × IoNext
  | .again => ([], .wait { call with retries := call.retries + 1 })
  | .intr => ([], call.head)
  | .error => ([], .back call (-1))
  | .done n =>
      match call.kind with
      | .accept => ([], .back call n)
      | .recv =>
          if n = 0 then ([], .back call (-1))
          else
            let moved := [Obs.moved call.coro n]
            let call := { call with ret := call.ret + n }
            (moved, if (n : Int) < call.len.toInt - call.ret then .back call call.ret
              else call.head)
      | .send =>
          if n = 0 then ([], .back call (-1))
          else
            let moved := [Obs.moved call.coro n]
            let call := { call with ret := call.ret + n }
            (moved, if (call.ret : Int) = call.len.toInt then .back call call.ret else call.head)

/-- `EPOLLIN || EPOLLOUT`, which is 1. -/
def networkMask : BitVec 32 := if epollIn ≠ 0 ∨ epollOut ≠ 0 then 1 else 0

namespace Sched

/-- `Scheduler::Spawn`: the state afterwards and the value it returns. -/
def spawn (s : Sched) (arg fn : Nat) : Except Fault (Sched × Int) :=
  let (id, map) := s.idMap.allocate
  let s := { s with idMap := map }
  if id < 0 then .ok (s.emit [.refused id], id)
  else
    let p := s.nextCo
    let co : Coroutine :=
      { arg := arg, fn := fn, id := id, status := .ready, locals := none, pc := .entry }
    let s := { s with nextCo := p + 1 }.setCo p (some co)
    if 0 ≤ id ∧ id < kCoroNum then
      .ok ({ s with
        coros := Function.update s.coros id.toNat p
        active := s.active ++ [p] }.emit [.spawned p id], id)
    else .error (.coros id)

/-- A switch to `main_`. The call of `Resume` that saved it returns. -/
def toMain (s : Sched) : Except Fault Sched :=
  match s.main with
  | some r => .ok { s with main := none, control := r.control }
  | none => .error .context

/-- `Scheduler::Yield`. -/
def yield (s : Sched) : Except Fault Sched := do
  let p ← s.corosAt s.running
  let co ← s.deref p
  ({ s.setCo p (some { co with status := .suspend, pc := .yielded }) with
    running := -1 }.emit [.left p]).toMain

/-- `Scheduler::Status`. -/
def status (s : Sched) (id : Int) : Except Fault Status := do
  let p ← s.corosAt id
  if p = 0 then return .dead
  else
    let co ← s.deref p
    return co.status

/-- `mainfunc` up to the call of the function, by the coroutine `p`. -/
def mainfunc (s : Sched) (p : CoPtr) : Except Fault Sched := do
  let id := s.running
  let coro ← s.corosAt id
  let co ← s.deref coro
  let self ← s.deref p
  return (s.setCo p (some { self with locals := some (id, coro), pc := .user })).emit
    [.called coro co.fn co.arg]

/-- `mainfunc` after the function has returned, with its local variables `id` and `coro`. -/
def finish (s : Sched) (id : Int) (coro : CoPtr) : Except Fault Sched := do
  let co ← s.deref coro
  let s := { s with idMap := s.idMap.free co.id }
  let s := (s.setCo coro none).emit [.finished coro]
  let _ ← s.corosAt id
  { s with
    coros := Function.update s.coros id.toNat 0
    num := s.num - 1
    running := -1 }.toMain

/-- `Accept`, `Recv` or `Send` from the label `swap` to `swapcontext`. -/
def swap (s : Sched) (call : IoCall) : Except Fault Sched := do
  let co ← s.deref call.coro
  ((s.setCo call.coro (some { co with status := .suspend, pc := .waiting call })).emit
    [.left call.coro]).toMain

/-- The coroutine `p` goes on in `Accept`, `Recv` or `Send`. -/
def ioGo (s : Sched) (p : CoPtr) (co : Coroutine) : IoNext → Except Fault Sched
  | .wait call => s.swap call
  | .loop call => return s.setCo p (some { co with pc := .native call })
  | .back call value =>
      return (s.setCo p (some { co with pc := .user })).emit
        [.returned p call.kind call.len value]

/-- The coroutine `p` goes on where it was switched out. After a wait its descriptor is
taken out of the epoll set. -/
def switchIn (s : Sched) (p : CoPtr) : Except Fault Sched := do
  let co ← s.deref p
  match co.pc with
  | .entry => s.mainfunc p
  | .yielded => return s.setCo p (some { co with pc := .user })
  | .waiting call =>
      let s := { s with epoll := Function.update s.epoll call.fd none }
      s.ioGo p co call.head
  | _ => return s

/-- `Scheduler::Resume`, called by `r`. -/
def resume (s : Sched) (id : Int) (r : Resumer) : Except Fault Sched := do
  let p ← s.corosAt id
  if p = 0 then return { s with control := r.control }
  else
    let co ← s.deref p
    if co.status = .ready ∨ co.status = .suspend then
      let s := { s with running := id, main := some r, control := .coroutine p }
      ((s.setCo p (some { co with status := .running })).emit [.resumed p]).switchIn p
    else return { s with control := r.control }

/-- The coroutine whose code runs, or 0 for `main`. -/
def caller (s : Sched) : CoPtr :=
  match s.control with
  | .coroutine p => p
  | _ => 0

/-- The `Socket` that `Accept`, `Recv` and `Send` use for a descriptor, made on first use
for the coroutine that uses it; `k` was read from `socks_`. -/
def sockFor (s : Sched) (fd : Fd) (coro : CoPtr) (k : SockPtr) : Sched × SockPtr :=
  if k = 0 then
    let k := s.nextSock
    ({ s with
      nextSock := k + 1
      sockets := Function.update s.sockets k (some { fd := fd, coro := coro })
      socks := Function.update s.socks fd.toNat k }, k)
  else (s, k)

/-- `Accept`, `Recv` or `Send` up to `swapcontext`; `ctl` is the error of `epoll_ctl` on a
descriptor that is not in the set. -/
def startIo (s : Sched) (kind : IoKind) (fd : Fd) (len : BitVec 64) (ctl : Option Errno) :
    Except Fault Sched := do
  let coro ← s.corosAt s.running
  let k ← s.socksAt fd
  let (s, k) := (s.emit [.entered s.caller kind len]).sockFor fd coro k
  if (s.epoll fd).isSome ∨ ctl.isSome then
    return s.emit [.returned s.caller kind len (-1)]
  else
    let s := { s with epoll := Function.update s.epoll fd (some (k, kind.mask)) }
    s.swap { kind := kind, coro := coro, fd := fd, len := len, ret := 0, retries := 0 }

/-- The loop of `CheckNetwork` over the events. -/
def pushEvents (s : Sched) : List (SockPtr × BitVec 32) → Except Fault Sched
  | [] => .ok s
  | (k, events) :: rest =>
      if events &&& networkMask ≠ 0 then do
        let sock ← s.derefSock k
        pushEvents ({ s with active := s.active ++ [sock.coro] }.emit [.pushed sock.coro]) rest
      else s.pushEvents rest

end Sched

/-- What `epoll_wait` reports on: a descriptor in the epoll set, or an entry whose descriptor
has been closed, named by the pointer that is stored with it. -/
inductive Watch
  | fd (fd : Fd)
  | orphan (k : SockPtr)
  deriving DecidableEq

namespace Sched

/-- The pointer that is stored with an entry of the epoll set. -/
def watched (s : Sched) : Watch → Option SockPtr
  | .fd fd => (s.epoll fd).map Prod.fst
  | .orphan k => if k ∈ s.orphans then some k else none

/-- `Scheduler::CheckNetwork`, and the next pass of `Run`. An empty list stands for the
error of `epoll_wait`. The kernel hands back the pointers stored with the entries. -/
def checkNetwork (s : Sched) (events : List (Watch × BitVec 32)) : Except Fault Sched :=
  let ready := events.filterMap fun e => (s.watched e.1).map fun k => (k, e.2)
  ({ s with control := .run 0 }.emit [.waited]).pushEvents ready

/-- The kernel closes a descriptor; `dup` says that a duplicate of it stays open. -/
def sysClose (s : Sched) (fd : Fd) (dup : Bool) : Sched :=
  { s with
    epoll := Function.update s.epoll fd none
    orphans := if dup then s.orphans ++ ((s.epoll fd).map Prod.fst).toList else s.orphans }

/-- `Scheduler::Close`. -/
def close (s : Sched) (fd : Fd) (dup : Bool) : Except Fault Sched := do
  let k ← s.socksAt fd
  if k = 0 then return s.sysClose fd dup
  else
    let _ ← s.derefSock k
    return { s with
      sockets := Function.update s.sockets k none
      socks := Function.update s.socks fd.toNat 0 }.sysClose fd dup

/-- User code has control. -/
def inUser (s : Sched) : Bool :=
  match s.control with
  | .main => true
  | .run _ => false
  | .coroutine p => (s.coroutines p).map Coroutine.pc == some .user

/-- User code as a caller of `Resume`. -/
def user (s : Sched) : Resumer :=
  match s.control with
  | .coroutine p => .coroutine p
  | _ => .main

end Sched

/-- What can happen next. -/
inductive Act
  | spawn (arg fn : Nat)
  | yield
  | status (id : Int)
  | resume (id : Int)
  | io (kind : IoKind) (fd : Fd) (len : BitVec 64) (ctl : Option Errno)
  /-- A native function answers. -/
  | native (ans : Answer)
  | close (fd : Fd) (dup : Bool)
  /-- The function of a coroutine returns. -/
  | ret
  | run
  /-- `Run` calls `Resume` for the coroutine at its iterator. -/
  | next
  /-- `Run` has come to the end of `active_`, and `epoll_wait` returns. -/
  | network (events : List (Watch × BitVec 32))
  /-- The last duplicate of a descriptor that was closed is closed. -/
  | forget (k : SockPtr)

namespace Sched

/-- The coroutine that has control, and its place. -/
def executing (s : Sched) : Option (CoPtr × Coroutine) :=
  match s.control with
  | .coroutine p => (s.coroutines p).map fun co => (p, co)
  | _ => none

/-- What an action does; `none` when it is not possible. -/
def perform (s : Sched) : Act → Option (Except Fault Sched)
  | .spawn arg fn => if s.inUser then some ((s.spawn arg fn).map Prod.fst) else none
  | .yield => if s.inUser then some s.yield else none
  | .status id => if s.inUser then some ((s.status id).map fun _ => s) else none
  | .resume id => if s.inUser then some (s.resume id s.user) else none
  | .io kind fd len ctl => if s.inUser then some (s.startIo kind fd len ctl) else none
  | .close fd dup => if s.inUser then some (s.close fd dup) else none
  | .native ans =>
      s.executing.bind fun r =>
        match r.2.pc with
        | .native call =>
            if ans.fits call then
              some ((s.emit (call.turn ans).1).ioGo r.1 r.2 (call.turn ans).2)
            else none
        | _ => none
  | .ret =>
      s.executing.bind fun r =>
        match r.2.pc, r.2.locals with
        | .user, some (id, coro) => some (s.finish id coro)
        | _, _ => none
  | .run => if s.inUser then some (.ok ({ s with control := .run 0 }.emit [.started])) else none
  | .next =>
      match s.control with
      | .run i => (s.active[i]?).map fun p =>
          (s.deref p).bind fun co => (s.emit [.visited p]).resume co.id (.run i)
      | _ => none
  | .network events =>
      if s.control = .run s.active.length ∧ ∀ e ∈ events, (s.watched e.1).isSome then
        some (s.checkNetwork events)
      else none
  | .forget k =>
      if k ∈ s.orphans then some (.ok { s with orphans := s.orphans.erase k }) else none

/-- One step; a run is not followed beyond a fault. -/
def step (s : Sched) (a : Act) : Option Sched :=
  if s.fault.isSome then none
  else (s.perform a).map fun r =>
    match r with
    | .ok s' => s'
    | .error f => { s with fault := some f }

end Sched

end Old

end Libcr
