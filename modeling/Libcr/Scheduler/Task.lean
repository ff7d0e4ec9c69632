import Libcr.Scheduler.Poll

/-!
# Switching coroutines and running tasks

`yield_env` and `coroutine_resume` of `coroutine_impl.c`, and `task_main`,
`new_task` and `create_thread_taskpool` of `coroutine_task.c`.

A switch is modelled by what the coroutine that is switched in does until it
reaches user code or switches again. Control returns to a coroutine below the
top of the call stack inside a `coroutine_resume` that `new_task`,
`create_thread_taskpool` or the event loop called.
-/

namespace Libcr

/-- Where a coroutine goes on when the `coroutine_resume` it called returns. In
`new_task` this is the last step before its `return 0`; the event loop and
`create_thread_taskpool` go on with their loops. -/
def Pc.landed : Pc → Pc
  | .newTask ph => .user ph
  | p => p

/-- What `new_task` writes into the task it took off the free list. -/
def Task.submit (task : Task) (attr : TaskAttr) (now : Nat) : Task :=
  { task with
    next := none
    arg := attr.arg
    state := .running
    leftmsec := attr.maxTimeoutMs
    timeout := false
    last := now
    attr := attr }

/-- What `task_main` writes into its task when it puts it back on the free list. -/
def Task.release (task : Task) (free : Option TaskId) : Task :=
  { task with next := free, arg := .null, state := .waiting }

namespace Sys

/-- `yield_env`, called by the coroutine on top of the call stack. -/
def yieldEnv (s : Sys) : Sys :=
  let size := s.callstack.length
  let s := s.emit [.yield size, .index (size - 2), .index (size - 1)]
  match s.callstack.dropLast.getLast? with
  | none => s
  | some last => { s with callstack := s.callstack.dropLast }.setPc last (s.pc last).landed

/-- One pass through the loop of `task_main` from its head, by the coroutine `c`
with the task `t`, up to the next switch or call of user code. -/
def taskMain (s : Sys) (c : CoId) (t : TaskId) : Sys :=
  match (s.tasks t).state with
  | .waiting => (s.setPc c .waiting).yieldEnv
  | .ended => (s.setCo c { s.coroutines c with state := .stopped, pc := .stopped }).yieldEnv
  | .running =>
      let task := s.tasks t
      let s := { s with pool := { s.pool with working := s.pool.working + 1 } }
      (s.setPc c (.user .fn)).emit
        [.called t (s.coroutines task.coroutine).fn task.arg]

/-- `coroutine_main` on the stack of `c`. Pooled coroutines are made with the
entry point `task_main` and their task as argument. -/
def coroutineMain (s : Sys) (c : CoId) : Sys :=
  match (s.coroutines c).fn, (s.coroutines c).arg with
  | .taskMain, .task t => s.taskMain c t
  | _, _ => (s.setCo c { s.coroutines c with state := .stopped, pc := .stopped }).yieldEnv

/-- The coroutine `c` has been switched in and goes on where it was. -/
def switchIn (s : Sys) (c : CoId) : Sys :=
  match s.pc c, (s.coroutines c).task with
  | .entry, _ => s.coroutineMain c
  | .waiting, some t => s.taskMain c t
  | .polling ph f, _ => s.pollReturn c ph f
  | _, _ => s

/-- `coroutine_resume`, and what `c` does when it runs. -/
def coroutineResume (s : Sys) (c : CoId) : Sys :=
  let size := s.callstack.length
  let s := s.emit [.index (size - 1), .index size]
  let s :=
    if (s.coroutines c).state ≠ .running then
      s.setCo c { s.coroutines c with state := .running, pc := .entry }
    else s
  { s with callstack := s.callstack ++ [c] }.switchIn c

/-- The end of the loop body of `task_main`: the task goes back to the free list
and the loop starts again. -/
def finishTask (s : Sys) (c : CoId) (t : TaskId) : Sys :=
  let task := s.tasks t
  let co := s.coroutines task.coroutine
  let s := (s.setTask t (task.release s.pool.free)).setCo
    task.coroutine { co with fn := .null }
  let s := { s with
    pool := { s.pool with free := some t, working := s.pool.working - 1 } }
  (s.emit [.freed t]).taskMain c t

/-- `task_main` after the function of the user has returned: the timeout
callback is called if the task has timed out and has one. -/
def finishFn (s : Sys) (c : CoId) (t : TaskId) : Sys :=
  let task := s.tasks t
  if task.timeout ∧ task.attr.timeout ≠ .null then
    (s.setPc c (.user .callback)).emit
      [.called t task.attr.timeout (s.coroutines task.coroutine).arg]
  else s.finishTask c t

/-- `new_task`, called by `c` from user code of phase `ph`: the state when control
next reaches user code or the event loop, and the value the call returns. -/
def newTask (s : Sys) (c : CoId) (ph : Phase) (attr : TaskAttr) : Sys × Int :=
  if s.pool.working = s.pool.size then (s, -1)
  else
    match s.pool.free with
    | none => (s, -1)
    | some t =>
        let task := s.tasks t
        let co := s.coroutines task.coroutine
        let s := { s with pool := { s.pool with free := task.next } }
        let s := (s.setTask t (task.submit attr s.now)).setCo
          task.coroutine { co with fn := attr.fn }
        let s := (s.emit [.created t attr s.now]).setPc c (.newTask ph)
        (s.coroutineResume task.coroutine, 0)

/-- The task `create_thread_taskpool` makes for the index `i`, zero but for the
fields it sets. -/
def freshTask (i : TaskId) (free : Option TaskId) : Task where
  coroutine := .worker i
  arg := .null
  state := .waiting
  next := free
  attr :=
    { enableSysHook := false
      maxTimeoutMs := 0
      arg := .null
      fn := .null
      timeout := .null
      maxTimeoutMs_int := zero_inInt32 }
  timeout := false
  leftmsec := 0
  last := 0

/-- The loop body of `create_thread_taskpool` for the index `i`. The coroutine
made by `coroutine_new` is entered at once and comes back from `task_main`. -/
def createTask (s : Sys) (i : TaskId) : Sys :=
  let co : Coroutine :=
    { fn := .taskMain, arg := .task i, state := .init, task := some i, pc := .entry }
  let s := ((s.emit [.tasksIndex i]).setTask i (freshTask i s.pool.free)).setCo (.worker i) co
  { s with pool := { s.pool with free := some i } }.coroutineResume (.worker i)

/-- `create_thread_taskpool`, called by `main`. -/
def createThreadTaskpool (s : Sys) (size : Int) : Sys :=
  let s := (List.range size.toNat).foldl createTask s
  { s with pool := { s.pool with size := size } }

end Sys

end Libcr
