import Libcr.Scheduler.EventLoop

/-!
# Runs of a thread

User code is not modelled: whatever coroutine is on top of the call stack may
next make any call of the public interface or return. The event loop is entered
by the thread's own flow of control and never left. An action carries what the
outside world answers during it.
-/

namespace Libcr

/-- What can happen next. -/
inductive Act
  /-- User code calls `coroutine_new_task`. -/
  | newTask (attr : TaskAttr)
  /-- A hooked function, called by a task with hooks on, reaches `poll_inner`. -/
  | poll (call : PollCall)
  /-- The function or the timeout callback of a task returns. -/
  | ret
  /-- User code closes a descriptor. -/
  | close (fd : Fd)
  /-- User code asks for the current coroutine, as every hooked function does. -/
  | self
  /-- The thread's own flow of control calls `coroutine_eventloop`. -/
  | eventloop (tick : Nat)
  /-- The event loop calls `epoll_wait` and prepares what it returned. -/
  | iterate (events : Sys.Events) (tick : Nat)
  /-- The event loop processes the next item of the active list. -/
  | drain

namespace Sys

/-- The environment made by `init_curr_thread_env`, at the clock reading of
`alloc_timer`. -/
def initCurrThreadEnv (tick : Nat) : Sys where
  callstack := [.main]
  coroutines := fun _ =>
    { fn := .null, arg := .null, state := .init, task := none, pc := .creating }
  tasks := fun _ =>
    { coroutine := .main
      arg := .null
      state := .running
      next := none
      attr :=
        { enableSysHook := false
          maxTimeoutMs := 0
          arg := .null
          fn := .null
          timeout := .null
          maxTimeoutMs_int := zero_inInt32 }
      timeout := false
      leftmsec := 0
      last := 0 }
  pool := { free := none, size := 0, working := 0 }
  now := 0
  wheel := Wheel.allocTimer kTimerSize (by decide) tick
  lists := LinkedSeqs.empty
  epollSet := fun _ => none
  frames := fun _ => none
  nextFrame := 0
  trace := [.clock tick]

/-- The pool size `coroutine_init_env` derives from the option the user gave. -/
def taskPerThread (option : Int) : Int :=
  if option = 0 then kDefaultTaskPerThread else option

/-- `do_init_curr_thread_env` with a pool of `size` tasks. -/
def init (tick : Nat) (size : Int) : Sys :=
  ((initCurrThreadEnv tick).createThreadTaskpool size).setPc .main (.user .main)

/-- The descriptor is closed, which takes it out of the epoll set. -/
def closeFd (s : Sys) (fd : Fd) : Sys :=
  { s with epollSet := Function.update s.epollSet fd none }.emit [.closed fd]

/-- One step; `none` when the action is not possible. -/
def step (s : Sys) (a : Act) : Option Sys :=
  match s.curr with
  | none => none
  | some c =>
      match a, s.pc c, (s.coroutines c).task with
      | .newTask attr, .user ph, _ => some (s.newTask c ph attr).1
      | .poll call, .user ph, some t =>
          if (s.tasks t).attr.enableSysHook then some (s.pollInner c ph t call) else none
      | .ret, .user .fn, some t => some (s.finishFn c t)
      | .ret, .user .callback, some t => some (s.finishTask c t)
      | .close fd, .user _, _ => some (s.closeFd fd)
      | .self, .user _, _ => some (s.emit [.index ((s.callstack.length : Int) - 1)])
      | .eventloop tick, .user .main, _ => some (s.enterEventloop tick)
      | .iterate events tick, .loopHead, _ =>
          if ∀ e ∈ events, (s.epollSet e.1).isSome then some (s.iterate events tick)
          else none
      | .drain, .draining, _ => some s.drain
      | _, _, _ => none

end Sys

end Libcr
