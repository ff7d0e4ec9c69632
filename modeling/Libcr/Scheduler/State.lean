import Libcr.Timer.Wheel

/-!
# The state of one thread

The data of `coroutine_impl.h`, `coroutine_task.h` and `epoll.h` that the
scheduler of one thread reads and writes: the call stack of `env_t`, the
coroutines, the task pool, the event loop's wheel and lists, the live
`poll_inner` frames, and the kernel's epoll set.

A coroutine that is not running continues where it was switched out. `Pc` names
these places; user code is left open, so its only place is "in user code", and
what it does next is chosen by the actions of a run.

`trace` records what happened, in order. No operation reads it.
-/

namespace Libcr

/-- `kMaxCallStack`: the number of entries `env->callstack` is allocated with. -/
def kMaxCallStack : Nat := 128

/-- `kMaxTimeoutMs`. -/
def kMaxTimeoutMs : Int := 10

/-- `kDefaultTaskPerThread`. -/
def kDefaultTaskPerThread : Int := 1000

/-- The size `alloc_epoll` gives the timer wheel. -/
def kTimerSize : Nat := 60000

abbrev TaskId := Nat

/-- The `poll_inner` calls of a thread, numbered as they are made. -/
abbrev FrameId := Nat

abbrev Fd := Int

abbrev Errno := Nat

namespace Errno

def eperm : Errno := 1
def enoent : Errno := 2
def ebadf : Errno := 9
def eagain : Errno := 11
def eexist : Errno := 17
def einval : Errno := 22
def einprogress : Errno := 115

end Errno

/-- `coroutine_t *`: the thread's own flow of control, or the `k`-th coroutine
made by `coroutine_new`. -/
inductive CoId
  | main
  | worker (k : Nat)
  deriving DecidableEq

/-- `coroutine_fun_t`: a null pointer, the entry point of pooled coroutines, or a
function of the user. -/
inductive Fun
  | null
  | taskMain
  | user (f : Nat)
  deriving DecidableEq

/-- `void *`: a null pointer, a pointer of the user, or the address of a task. -/
inductive Arg
  | null
  | user (p : Nat)
  | task (t : TaskId)
  deriving DecidableEq

/-- `coroutine_task_attr_t`. The deadline is an `int`. -/
structure TaskAttr where
  enableSysHook : Bool
  maxTimeoutMs : Int
  arg : Arg
  fn : Fun
  timeout : Fun
  maxTimeoutMs_int : -2 ^ 31 ≤ maxTimeoutMs ∧ maxTimeoutMs < 2 ^ 31 := by decide
  deriving DecidableEq

/-- `task_state_t`. -/
inductive TaskState
  | running
  | waiting
  | ended
  deriving DecidableEq

/-- `task_t`. `next` links the free list. -/
structure Task where
  coroutine : CoId
  arg : Arg
  state : TaskState
  next : Option TaskId
  attr : TaskAttr
  timeout : Bool
  leftmsec : Int
  last : Nat
  deriving DecidableEq

/-- `state_t`. -/
inductive CoState
  | init
  | running
  | stopped
  deriving DecidableEq

/-- Which user code a coroutine is executing: the thread's own, the function of
its task, or the timeout callback of its task. -/
inductive Phase
  | main
  | fn
  | callback
  deriving DecidableEq

/-- Where a coroutine is. -/
inductive Pc
  /-- Not entered since `context_make`. -/
  | entry
  /-- In `create_thread_taskpool`, inside `coroutine_resume`. -/
  | creating
  /-- In `task_main`, inside `coroutine_yield_context`. -/
  | waiting
  /-- In user code. -/
  | user (ph : Phase)
  /-- In `new_task`, inside `coroutine_resume`. -/
  | newTask (ph : Phase)
  /-- In `poll_inner`, inside `yield_env`. -/
  | polling (ph : Phase) (f : FrameId)
  /-- In `coroutine_eventloop`, at the head of the outer loop. -/
  | loopHead
  /-- In `coroutine_eventloop`, in the loop that empties the active list. -/
  | draining
  /-- In `coroutine_main`, inside its last `yield_env`. -/
  | stopped
  deriving DecidableEq

/-- `coroutine_t`, with the place where it continues. -/
structure Coroutine where
  fn : Fun
  arg : Arg
  state : CoState
  task : Option TaskId
  pc : Pc
  deriving DecidableEq

/-- `taskpool_t`. `free` is the head of the free list. -/
structure Pool where
  free : Option TaskId
  size : Int
  working : Int
  deriving DecidableEq

/-- The fields of `struct pollfd` that the caller of `poll` fills in. -/
structure PollFd where
  fd : Fd
  events : BitVec 16
  deriving DecidableEq

/-- One live `poll_inner` call: its `poll_context_t`, the caller's array, and the
`expire` and `timeout` fields of its timer item. `revents` is the shadow array. -/
structure PollFrame where
  coroutine : CoId
  fds : List PollFd
  revents : List (BitVec 16)
  allEventDetatch : Bool
  raiseCnt : Nat
  expire : Nat
  timeout : Bool
  deriving DecidableEq

/-- What the kernel keeps for a registered descriptor: the pointer to the
`item`-th poll item of a `poll_inner` call, and the event mask. -/
structure Registration where
  frame : FrameId
  item : Nat
  events : BitVec 32
  deriving DecidableEq

/-- What a run shows. -/
inductive Obs
  /-- A reading of `GetTickMS`. -/
  | clock (reading : Nat)
  /-- An index used on `env->callstack`. -/
  | index (i : Int)
  /-- `yield_env` entered with this `callstacksize`. -/
  | yield (callstacksize : Nat)
  /-- An index used on `pool->tasks`. -/
  | tasksIndex (i : Nat)
  /-- `new_task` took the task off the free list, with the cached time it read. -/
  | created (t : TaskId) (attr : TaskAttr) (cached : Nat)
  /-- `task_main` called a function of the user. -/
  | called (t : TaskId) (f : Fun) (a : Arg)
  /-- `fix_coroutine_timeout` ran at the cached time `now`. -/
  | fixed (t : TaskId) (now : Nat) (before after : Task) (istimeout : Bool)
  /-- `task_main` put the task back on the free list. -/
  | freed (t : TaskId)
  /-- A registration entered the epoll set. -/
  | added (f : FrameId) (item : Nat) (fd : Fd)
  /-- A `poll_inner` call removed a registration from the epoll set. -/
  | removed (f : FrameId) (fd : Fd) (r : Registration)
  /-- A descriptor was closed. -/
  | closed (fd : Fd)
  /-- `poll_inner` is about to yield. -/
  | suspended (f : FrameId)
  /-- `poll_inner` returned to its caller; `errno` is given where the call has set it. -/
  | polled (c : CoId) (ret : Int) (errno : Option Errno) (revents : List (BitVec 16))
  /-- `epoll_wait` was called. -/
  | epollWait
  /-- An event was handed to `prepare_poll_event`. -/
  | delivered (f : FrameId)
  /-- A timer item entered the active list. -/
  | activated (f : FrameId)
  /-- The process function of a timer item was called. -/
  | processed (f : FrameId)
  /-- A pointer into a `poll_inner` call that has returned was followed. -/
  | dangling (f : FrameId)
  deriving DecidableEq

/-- The state of one thread. -/
structure Sys where
  callstack : List CoId
  coroutines : CoId → Coroutine
  tasks : TaskId → Task
  pool : Pool
  now : Nat
  wheel : Wheel
  lists : TimerLists FrameId
  epollSet : Fd → Option Registration
  frames : FrameId → Option PollFrame
  nextFrame : FrameId
  trace : List Obs

namespace Sys

/-- Where a coroutine is. -/
def pc (s : Sys) (c : CoId) : Pc := (s.coroutines c).pc

/-- Record observations. -/
def emit (s : Sys) (os : List Obs) : Sys := { s with trace := s.trace ++ os }

/-- Overwrite a coroutine. -/
def setCo (s : Sys) (c : CoId) (co : Coroutine) : Sys :=
  { s with coroutines := Function.update s.coroutines c co }

/-- Move a coroutine to another place. -/
def setPc (s : Sys) (c : CoId) (pc : Pc) : Sys :=
  s.setCo c { s.coroutines c with pc := pc }

/-- Overwrite a task. -/
def setTask (s : Sys) (t : TaskId) (task : Task) : Sys :=
  { s with tasks := Function.update s.tasks t task }

/-- Overwrite a frame. -/
def setFrame (s : Sys) (f : FrameId) (fr : Option PollFrame) : Sys :=
  { s with frames := Function.update s.frames f fr }

/-- The coroutine `env->callstack[env->callstacksize - 1]`. -/
def curr (s : Sys) : Option CoId := s.callstack.getLast?

/-- Only one task runs. -/
theorem worker_unique {s : Sys} {t t' : TaskId} (h : s.curr = some (.worker t))
    (h' : s.curr = some (.worker t')) : t = t' :=
  CoId.worker.inj (Option.some.inj (h.symm.trans h'))

end Sys

end Libcr
