import Libcr.Scheduler.Invariant

/-!
# What a step can do

Each kind of step in one closed form. `Sys.step` follows the code through
`coroutine_resume`, `yield_env` and the loop of `task_main`; the states below are
what comes out when the scheduling invariant holds. Everything that is proved
about runs is proved by cases on `Transition`.
-/

namespace Libcr

namespace Sys

/-- `new_task` has handed out the task `t`, whose function has been called. -/
def spawned (s : Sys) (c : CoId) (ph : Phase) (t : TaskId) (attr : TaskAttr) : Sys :=
  { s with
    callstack := s.callstack ++ [.worker t]
    coroutines := Function.update
      (Function.update s.coroutines c { s.coroutines c with pc := .newTask ph })
      (.worker t) { s.coroutines (.worker t) with fn := attr.fn, pc := .user .fn }
    tasks := Function.update s.tasks t ((s.tasks t).submit attr s.now)
    pool := { s.pool with free := (s.tasks t).next, working := s.pool.working + 1 }
    trace := s.trace ++ [.created t attr s.now, .index ((s.callstack.length : Int) - 1),
      .index s.callstack.length, .called t attr.fn attr.arg] }

/-- The result of `fix_coroutine_timeout` in a `poll_inner` call of the task `t`. -/
def fix (s : Sys) (t : TaskId) (call : PollCall) : Task × Int × Bool :=
  fixCoroutineTimeout (s.tasks t) s.now call.timeout

/-- `poll_inner` after `fix_coroutine_timeout`. -/
def fixed (s : Sys) (t : TaskId) (call : PollCall) : Sys :=
  { s with
    tasks := Function.update s.tasks t (s.fix t call).1
    trace := s.trace ++ [.index ((s.callstack.length : Int) - 1),
      .fixed t s.now (s.tasks t) (s.fix t call).1 (s.fix t call).2.2] }

/-- The result of the loop that registers the descriptors of a `poll_inner` call. -/
def register (s : Sys) (call : PollCall) : (Fd → Option Registration) × List Obs × Bool :=
  addEpoll call s.nextFrame 0 call.fds s.epollSet

/-- The `expire` that a `poll_inner` call of the task `t` computes. -/
def expireAt (s : Sys) (t : TaskId) (call : PollCall) : Nat :=
  toUInt64 ((call.tick : Int) + clampTimeout (s.fix t call).2.1)

/-- The distance `add_timeout` computes for that time. -/
def distanceAt (s : Sys) (t : TaskId) (call : PollCall) : Int :=
  toInt32 ((s.expireAt t call : Int) - (s.wheel.restart call.tick).start)

/-- The test of `add_timeout` on that time. -/
def accepts (s : Sys) (t : TaskId) (call : PollCall) : Prop :=
  (s.wheel.restart call.tick).start ≤ call.tick ∧ call.tick ≤ s.expireAt t call ∧
    s.distanceAt t call < s.wheel.size

/-- What `errno` is after a `poll_inner` call that `add_timeout` has refused. -/
def refusal (s : Sys) (call : PollCall) : Errno :=
  delErrno call 0 call.fds (s.register call).1 Errno.einval

/-- `add_timeout` has refused a `poll_inner` call. -/
def rejected (s : Sys) (t : TaskId) (call : PollCall) : Sys :=
  let d := delEpoll s.nextFrame call.fds (s.register call).1
  { s.fixed t call with
    wheel := s.wheel.restart call.tick
    epollSet := d.1
    nextFrame := s.nextFrame + 1
    trace := (s.fixed t call).trace ++ ((s.register call).2.1 ++ [.clock call.tick] ++
      (d.2 ++ [.polled (.worker t) (-1) (some (s.refusal call)) []])) }

/-- What a `poll_inner` call keeps while it is suspended. -/
def frameAt (s : Sys) (t : TaskId) (call : PollCall) : PollFrame where
  coroutine := .worker t
  fds := call.fds
  revents := call.fds.map fun _ => 0
  allEventDetatch := false
  raiseCnt := 0
  expire := s.expireAt t call
  timeout := false

/-- `poll_inner` has armed its timer and the coroutine has yielded to `last`. -/
def suspended (s : Sys) (last : CoId) (ph : Phase) (t : TaskId) (call : PollCall) : Sys :=
  { s.fixed t call with
    callstack := s.callstack.dropLast
    coroutines := Function.update
      (Function.update s.coroutines (.worker t)
        { s.coroutines (.worker t) with pc := .polling ph s.nextFrame })
      last { s.coroutines last with pc := (s.pc last).landed }
    wheel := s.wheel.restart call.tick
    lists := s.lists.append
      (.slot ((s.wheel.restart call.tick).slotIndex (s.distanceAt t call))) s.nextFrame
    epollSet := (s.register call).1
    frames := Function.update s.frames s.nextFrame (some (s.frameAt t call))
    nextFrame := s.nextFrame + 1
    trace := (s.fixed t call).trace ++ ((s.register call).2.1 ++ [.clock call.tick] ++
      [.suspended s.nextFrame, .yield s.callstack.length,
        .index ((s.callstack.length : Int) - 2), .index ((s.callstack.length : Int) - 1)]) }

/-- The task `t` is back on the free list and its coroutine has yielded to `last`. -/
def finished (s : Sys) (last : CoId) (t : TaskId) : Sys :=
  { s with
    callstack := s.callstack.dropLast
    coroutines := Function.update
      (Function.update s.coroutines (.worker t)
        { s.coroutines (.worker t) with fn := .null, pc := .waiting })
      last { s.coroutines last with pc := (s.pc last).landed }
    tasks := Function.update s.tasks t ((s.tasks t).release s.pool.free)
    pool := { s.pool with free := some t, working := s.pool.working - 1 }
    trace := s.trace ++ [.freed t, .yield s.callstack.length,
      .index ((s.callstack.length : Int) - 2), .index ((s.callstack.length : Int) - 1)] }

/-- The timeout callback of the task `t` has been called. -/
def callingBack (s : Sys) (t : TaskId) : Sys :=
  { s with
    coroutines := Function.update s.coroutines (.worker t)
      { s.coroutines (.worker t) with pc := .user .callback }
    trace := s.trace ++ [.called t (s.tasks t).attr.timeout (.task t)] }

/-- The event loop has processed the frame `f` of the task `t`, whose
`poll_inner` call has returned. -/
def woken (s : Sys) (f : FrameId) (fr : PollFrame) (t : TaskId) (ph : Phase) : Sys :=
  let d := delEpoll f fr.fds s.epollSet
  { s with
    callstack := s.callstack ++ [.worker t]
    coroutines := Function.update s.coroutines (.worker t)
      { s.coroutines (.worker t) with pc := .user ph }
    lists := s.lists.unlink .active f
    epollSet := d.1
    frames := Function.update s.frames f none
    trace := s.trace ++ ([.processed f, .index ((s.callstack.length : Int) - 1),
      .index s.callstack.length] ++ (d.2 ++ [.polled (.worker t) fr.raiseCnt none fr.revents])) }

end Sys

/-- The steps of a thread with a pool of `n` tasks. -/
inductive Transition (n : Nat) (s : Sys) : Act → Sys → Prop
  /-- `new_task` finds the pool full. -/
  | full {c : CoId} {ph : Phase} {attr : TaskAttr} (hcurr : s.curr = some c)
      (hpc : s.pc c = .user ph) (hfree : s.pool.free = none) :
      Transition n s (.newTask attr) s
  | spawn {c : CoId} {ph : Phase} {attr : TaskAttr} {t : TaskId}
      (hcurr : s.curr = some c) (hpc : s.pc c = .user ph) (ht : t < n)
      (hfree : s.pool.free = some t) :
      Transition n s (.newTask attr) (s.spawned c ph t attr)
  /-- `poll_inner` finds the deadline of the task expired. -/
  | expired {ph : Phase} {t : TaskId} {call : PollCall} (ht : t < n)
      (hcurr : s.curr = some (.worker t)) (hpc : s.pc (.worker t) = .user ph)
      (hfix : (s.fix t call).2.2 = true) :
      Transition n s (.poll call) ((s.fixed t call).emit [.polled (.worker t) (-1) none []])
  /-- `poll_inner` leaves for the native `poll`. -/
  | fallback {ph : Phase} {t : TaskId} {call : PollCall} (ht : t < n)
      (hcurr : s.curr = some (.worker t)) (hpc : s.pc (.worker t) = .user ph)
      (hfix : (s.fix t call).2.2 = false) (hreg : (s.register call).2.2 = true) :
      Transition n s (.poll call)
        ({ s.fixed t call with nextFrame := s.nextFrame + 1 }.emit
          [.polled (.worker t) call.native none call.nativeRevents])
  /-- `add_timeout` refuses the time. -/
  | reject {ph : Phase} {t : TaskId} {call : PollCall} (ht : t < n)
      (hcurr : s.curr = some (.worker t)) (hpc : s.pc (.worker t) = .user ph)
      (hfix : (s.fix t call).2.2 = false) (hreg : (s.register call).2.2 = false)
      (hacc : ¬ s.accepts t call) :
      Transition n s (.poll call) (s.rejected t call)
  | suspend {ph : Phase} {t : TaskId} {call : PollCall} {last : CoId} (ht : t < n)
      (hcurr : s.curr = some (.worker t)) (hpc : s.pc (.worker t) = .user ph)
      (hlast : s.callstack.dropLast.getLast? = some last)
      (hfix : (s.fix t call).2.2 = false) (hreg : (s.register call).2.2 = false)
      (hacc : s.accepts t call) :
      Transition n s (.poll call) (s.suspended last ph t call)
  /-- The function of a task returns and its timeout callback is called. -/
  | callback {t : TaskId} (ht : t < n) (hcurr : s.curr = some (.worker t))
      (hpc : s.pc (.worker t) = .user .fn) (htimeout : (s.tasks t).timeout = true)
      (hnull : (s.tasks t).attr.timeout ≠ .null) :
      Transition n s .ret (s.callingBack t)
  | finish {t : TaskId} {ph : Phase} {last : CoId} (ht : t < n)
      (hcurr : s.curr = some (.worker t)) (hpc : s.pc (.worker t) = .user ph)
      (hlast : s.callstack.dropLast.getLast? = some last)
      (hph : ph = .fn ∧ ¬ ((s.tasks t).timeout = true ∧ (s.tasks t).attr.timeout ≠ .null) ∨
        ph = .callback) :
      Transition n s .ret (s.finished last t)
  | close {c : CoId} {ph : Phase} {fd : Fd} (hcurr : s.curr = some c)
      (hpc : s.pc c = .user ph) : Transition n s (.close fd) (s.closeFd fd)
  | self {c : CoId} {ph : Phase} (hcurr : s.curr = some c) (hpc : s.pc c = .user ph) :
      Transition n s .self (s.emit [.index ((s.callstack.length : Int) - 1)])
  | eventloop {tick : Nat} (hcurr : s.curr = some .main) (hpc : s.pc .main = .user .main) :
      Transition n s (.eventloop tick) (s.enterEventloop tick)
  | iterate {events : Sys.Events} {tick : Nat} (hcurr : s.curr = some .main)
      (hpc : s.pc .main = .loopHead) (hset : ∀ e ∈ events, (s.epollSet e.1).isSome) :
      Transition n s (.iterate events tick) (s.iterate events tick)
  /-- The active list is empty. -/
  | drained (hcurr : s.curr = some .main) (hpc : s.pc .main = .draining)
      (hactive : s.lists.seq .active = []) :
      Transition n s .drain (s.setPc .main .loopHead)
  | wake {f : FrameId} {rest : List FrameId} {fr : PollFrame} {t : TaskId} {ph : Phase}
      (hcurr : s.curr = some .main) (hpc : s.pc .main = .draining)
      (hactive : s.lists.seq .active = f :: rest) (hframe : s.frames f = some fr)
      (ht : t < n) (hco : fr.coroutine = .worker t)
      (hpoll : s.pc (.worker t) = .polling ph f) :
      Transition n s .drain (s.woken f fr t ph)

end Libcr
