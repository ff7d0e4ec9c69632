import Libcr.IdMap.Live
import Libcr.Scheduler.Poll

/-!
# The state of the old scheduler

The data of `oldsrc/coroutine.h` and `oldsrc/coroutine.cc`: the vectors and the list of
the one `Scheduler`, the `Coroutine` and `Socket` objects it makes with `new`, the epoll
set, and who has control. Objects are numbered as they are made and 0 is the null pointer;
a number is never used again, so that a pointer to a deleted object stays recognisable.

An access outside of a vector or through a pointer that is null or whose object has been
deleted is a `Fault`, and so is a switch to `main_` when the call of `Resume` that saved it has
returned. The stack of a coroutine is deleted together with it while `mainfunc` still runs on
it; this is not counted as a fault, and `mainfunc` goes on.
-/

namespace Libcr

namespace Old

/-- `kCoroNum`, the size of `coros_` and of `socks_`. -/
def kCoroNum : Nat := 256

/-- `Coroutine *`. -/
abbrev CoPtr := Nat

/-- `Socket *`. -/
abbrev SockPtr := Nat

/-- `kStatusDead`, `kStatusReady`, `kStatusRunning` and `kStatusSuspend`. -/
inductive Status
  | dead
  | ready
  | running
  | suspend
  deriving DecidableEq

/-- The three calls that wait for a descriptor. -/
inductive IoKind
  | accept
  | recv
  | send
  deriving DecidableEq

/-- The local variables of `Accept`, `Recv` and `Send`. `Accept` has no length. `retries`
counts how often `goto swap` was taken; no operation reads it. -/
structure IoCall where
  kind : IoKind
  coro : CoPtr
  fd : Fd
  len : BitVec 64
  ret : Nat
  retries : Nat
  deriving DecidableEq

/-- Where a coroutine is. -/
inductive Pc
  /-- Not entered. -/
  | entry
  /-- In its function. -/
  | user
  /-- In `Yield`, inside `swapcontext`. -/
  | yielded
  /-- In `Accept`, `Recv` or `Send`, inside `swapcontext`. -/
  | waiting (call : IoCall)
  /-- In the loop of such a call, before the native function. -/
  | native (call : IoCall)
  deriving DecidableEq

/-- `struct Coroutine`, with the local variables `id` and `coro` of `mainfunc` once it has
been entered, and the place where it continues. -/
structure Coroutine where
  arg : Nat
  fn : Nat
  id : Int
  status : Status
  locals : Option (Int × CoPtr)
  pc : Pc
  deriving DecidableEq

/-- `struct Socket`. -/
structure Socket where
  fd : Fd
  coro : CoPtr
  deriving DecidableEq

/-- Who has control: `main`, `Run` with its iterator at a position of `active_`, or a
coroutine. -/
inductive Control
  | main
  | run (i : Nat)
  | coroutine (p : CoPtr)
  deriving DecidableEq

/-- Who has called `Resume`: `main` or a coroutine, or `Run` at a position of `active_`. -/
inductive Resumer
  | main
  | run (i : Nat)
  | coroutine (p : CoPtr)
  deriving DecidableEq

/-- Who has control when `Resume` has returned. -/
def Resumer.control : Resumer → Control
  | .main => .main
  | .run i => .run (i + 1)
  | .coroutine p => .coroutine p

/-- What a program may not do. -/
inductive Fault
  /-- `coros_[i]` with an index outside of the vector. -/
  | coros (i : Int)
  /-- `socks_[fd]` with an index outside of the vector. -/
  | socks (fd : Fd)
  /-- A `Coroutine *` that is null or deleted was followed. -/
  | coroutine (p : CoPtr)
  /-- A `Socket *` that is null or deleted was followed. -/
  | socket (k : SockPtr)
  /-- `main_` was switched to, and the call of `Resume` that saved it had returned. -/
  | context
  deriving DecidableEq

/-- What a run shows. -/
inductive Obs
  /-- `Spawn` made a coroutine and put it on `active_`. -/
  | spawned (p : CoPtr) (id : Int)
  /-- `Spawn` returned the error of the id map. -/
  | refused (id : Int)
  /-- `Run` was called. -/
  | started
  /-- `Run` came to an entry of `active_` and called `Resume`. -/
  | visited (p : CoPtr)
  /-- `Resume` switched to a coroutine. -/
  | resumed (p : CoPtr)
  /-- A coroutine switched to `main_`. -/
  | left (p : CoPtr)
  /-- `mainfunc` called the function of a coroutine. -/
  | called (p : CoPtr) (fn arg : Nat)
  /-- `mainfunc` deleted a coroutine. -/
  | finished (p : CoPtr)
  /-- `epoll_wait` returned. -/
  | waited
  /-- `CheckNetwork` put a coroutine on `active_`. -/
  | pushed (p : CoPtr)
  /-- A native call moved bytes. -/
  | moved (p : CoPtr) (n : Nat)
  /-- `Accept`, `Recv` or `Send` was entered, by a coroutine or by `main`, which is 0 here. -/
  | entered (p : CoPtr) (kind : IoKind) (len : BitVec 64)
  /-- `Accept`, `Recv` or `Send` returned. -/
  | returned (p : CoPtr) (kind : IoKind) (len : BitVec 64) (value : Int)
  deriving DecidableEq

/-- The `Scheduler`, the objects and the epoll set. `main` is the context in `main_` while the
call of `Resume` that saved it has not returned. `orphans` are the entries of the epoll set
whose descriptor has been closed while a duplicate of it is open. -/
structure Sched where
  running : Int
  num : BitVec 64
  active : List CoPtr
  coros : Nat → CoPtr
  socks : Nat → SockPtr
  idMap : IdMap
  main : Option Resumer
  epoll : Fd → Option (SockPtr × BitVec 32)
  orphans : List SockPtr
  coroutines : CoPtr → Option Coroutine
  sockets : SockPtr → Option Socket
  nextCo : CoPtr
  nextSock : SockPtr
  control : Control
  fault : Option Fault
  log : List Obs

namespace Sched

/-- The constructor. -/
def new : Sched where
  running := -1
  num := 0
  active := []
  coros := fun _ => 0
  socks := fun _ => 0
  idMap := IdMap.new
  main := none
  epoll := fun _ => none
  orphans := []
  coroutines := fun _ => none
  sockets := fun _ => none
  nextCo := 1
  nextSock := 1
  control := .main
  fault := none
  log := []

/-- Record observations. -/
def emit (s : Sched) (os : List Obs) : Sched := { s with log := s.log ++ os }

/-- Overwrite a coroutine. -/
def setCo (s : Sched) (p : CoPtr) (co : Option Coroutine) : Sched :=
  { s with coroutines := Function.update s.coroutines p co }

/-- `coros_[i]`. -/
def corosAt (s : Sched) (i : Int) : Except Fault CoPtr :=
  if 0 ≤ i ∧ i < kCoroNum then .ok (s.coros i.toNat) else .error (.coros i)

/-- `socks_[fd]`. -/
def socksAt (s : Sched) (fd : Fd) : Except Fault SockPtr :=
  if 0 ≤ fd ∧ fd < kCoroNum then .ok (s.socks fd.toNat) else .error (.socks fd)

/-- The object behind a `Coroutine *`. -/
def deref (s : Sched) (p : CoPtr) : Except Fault Coroutine :=
  match s.coroutines p with
  | some co => .ok co
  | none => .error (.coroutine p)

/-- The object behind a `Socket *`. -/
def derefSock (s : Sched) (k : SockPtr) : Except Fault Socket :=
  match s.sockets k with
  | some sock => .ok sock
  | none => .error (.socket k)

end Sched

end Old

end Libcr
