import Libcr.Hook.Turns
import Libcr.Scheduler.OnTime

/-!
# Sleeping and polling with a timeout

`sleep`, `usleep` and `nanosleep` convert their argument to milliseconds and hand it to
`poll_inner`, whose answer they ignore; `poll` passes its timeout and the answer on. On
the way the time is cut to an `int`, and twice to the ten milliseconds of
`kMaxTimeoutMs`. A call comes back no earlier than it was asked to exactly when it was
asked for no more than that.
-/

namespace Libcr

/-- The hooked functions that wait for a time. -/
inductive TimedCall
  | sleep (seconds : UInt32)
  | usleep (usec : UInt32)
  | nanosleep (tvSec tvNsec : Int)
  | poll (timeout : Int)

/-- The `int` that `poll_inner` receives from `doSleep(timeout_ms)`. -/
def doSleep (timeoutMs : Nat) : Int := toInt32 timeoutMs

namespace TimedCall

/-- The timeout that `poll_inner` is called with. -/
def timeout : TimedCall → Int
  | .sleep seconds => doSleep (seconds * 1000).toNat
  | .usleep usec => doSleep (usec / 1000).toNat
  | .nanosleep tvSec tvNsec =>
      doSleep (toUInt64 (toInt32 (tvSec * 1000 + tvNsec.tdiv 1000000)))
  | .poll timeout => timeout

/-- The functions that go through `doSleep`, without descriptors and without the native
`poll`. -/
def sleeps : TimedCall → Bool
  | .poll _ => false
  | _ => true

/-- What the function returns when `poll_inner` has returned `ret`. -/
def result : TimedCall → Int → Int
  | .poll _, ret => ret
  | _, _ => 0

/-- The time that was asked for, in whole milliseconds; none if there is no end to it. -/
def requested : TimedCall → Option Int
  | .sleep seconds => some (seconds.toNat * 1000)
  | .usleep usec => some (usec.toNat / 1000)
  | .nanosleep tvSec tvNsec => some (tvSec * 1000 + tvNsec.tdiv 1000000)
  | .poll timeout => if timeout = -1 then none else some timeout

/-- The `poll_inner` call that the function makes. -/
structure Makes (c : TimedCall) (call : PollCall) : Prop where
  timeout : call.timeout = c.timeout
  pollfunc : call.pollfunc = !c.sleeps
  fds : c.sleeps = true → call.fds = []

/-- What was asked for has passed between two readings of the clock. -/
def Elapsed (c : TimedCall) (called returned : Nat) : Prop :=
  ∃ ms, c.requested = some ms ∧ (called : Int) + ms ≤ returned

end TimedCall

/-- A call of a task without a deadline in a thread, from the state `before` in which
`poll_inner` is called to the state `after` in which it returns. The clock would be read as
`called` at the call and as `returned` at the return. The thread is paced, a call that
sleeps asks for a time less than a minute after the last iteration of the event loop, and a
native `poll` that answers 0 has waited for its timeout. -/
structure TimedRun (c : TimedCall) where
  tick : Nat
  size : Int
  before : Sys
  made : Sys
  after : Sys
  task : TaskId
  call : PollCall
  obs : List Obs
  ret : Int
  errno : Option Errno
  revents : List (BitVec 16)
  called : Nat
  returned : Nat
  tick_pos : 0 < tick
  tick_lt : tick < 2 ^ 63
  reached : Sys.Reached Sys.Paced tick size before
  curr : before.curr = some (.worker task)
  unlimited : (before.tasks task).attr.maxTimeoutMs = -1
  makes : c.Makes call
  paced : before.Paced (.poll call)
  step : before.step (.poll call) = some made
  run : Reaches Sys.step Sys.Paced made after
  trace : after.trace =
    before.trace ++ (obs ++ [.polled (.worker task) ret errno revents])
  first : ∀ o ∈ obs, o.polledBy ≠ some (.worker task)
  clock : (clocksOf after.trace).Pairwise (· ≤ ·)
  fresh : c.sleeps = true →
    call.tick + clampTimeout (before.fix task call).2.1 < before.wheel.start + kTimerSize
  le_called : ∀ reading ∈ clocksOf before.trace, reading ≤ called
  called_le : ∀ reading ∈ clocksOf obs, called ≤ reading
  le_returned : ∀ reading ∈ clocksOf obs, reading ≤ returned
  called_le_returned : called ≤ returned
  native : (before.register call).2.2 = true → call.native = 0 →
    (called : Int) + clampTimeout (before.fix task call).2.1 ≤ returned

namespace TimedCall

variable {c : TimedCall} {ms : Int}

theorem doSleep_of_range {n : Nat} (h : n < 2 ^ 31) : doSleep n = n :=
  toInt32_of_range (by omega) (by omega)

/-- A short time reaches `poll_inner` as it is. -/
theorem timeout_eq (hreq : c.requested = some ms) (hnonneg : 0 ≤ ms)
    (hle : ms ≤ kMaxTimeoutMs) : c.timeout = ms := by
  unfold kMaxTimeoutMs at hle
  cases c with
  | sleep seconds =>
      obtain rfl := Option.some_inj.mp hreq
      have hzero : seconds.toNat = 0 := by omega
      have hmul : (seconds * 1000).toNat = 0 := by simp [UInt32.toNat_mul, hzero]
      rw [timeout, hmul, hzero]
      rfl
  | usleep usec =>
      obtain rfl := Option.some_inj.mp hreq
      have hdiv : (usec / 1000).toNat = usec.toNat / 1000 := UInt32.toNat_div ..
      rw [timeout, hdiv, doSleep_of_range (by omega)]
      omega
  | nanosleep tvSec tvNsec =>
      obtain rfl := Option.some_inj.mp hreq
      have hint : toInt32 (tvSec * 1000 + tvNsec.tdiv 1000000) =
          tvSec * 1000 + tvNsec.tdiv 1000000 := toInt32_of_range (by omega) (by omega)
      have hlong := toUInt64_of_range hnonneg (by omega)
      rw [timeout, hint, doSleep, hlong, hint]
  | poll timeout =>
      simp only [requested] at hreq
      split at hreq
      · simp at hreq
      · exact Option.some_inj.mp hreq

theorem clampTimeout_of_range (hnonneg : 0 ≤ ms) (hle : ms ≤ kMaxTimeoutMs) :
    clampTimeout ms = ms := by
  unfold clampTimeout
  rw [if_neg (by omega)]

end TimedCall

namespace TimedRun

variable {c : TimedCall} (run : TimedRun c)

theorem inv : Inv run.size.toNat run.before := Sys.Reached.inv run.reached

theorem reached_made : Sys.Reached Sys.Paced run.tick run.size run.made :=
  Reaches.snoc run.reached run.paced run.step

/-- The task has no deadline that could expire. -/
theorem fix_eq : run.before.fix run.task run.call =
    (run.before.tasks run.task, clampTimeout c.timeout, false) := by
  unfold Sys.fix fixCoroutineTimeout
  rw [if_pos run.unlimited, run.makes.timeout]

/-- What the step of the call records is what is recorded first. -/
theorem split_obs {os : List Obs} (hmade : run.made.trace = run.before.trace ++ os) :
    ∃ seg, run.after.trace = run.made.trace ++ seg ∧
      run.obs ++ [.polled (.worker run.task) run.ret run.errno run.revents] = os ++ seg := by
  obtain ⟨seg, hseg⟩ := run.reached_made.run_extends run.run
  refine ⟨seg, hseg, ?_⟩
  have htrace := run.trace
  rw [hseg, hmade, List.append_assoc] at htrace
  exact (List.append_cancel_left htrace).symm

/-- A call that returns in its own step returns what the step says. -/
theorem ret_eq {os : List Obs} {ret : Int} {errno : Option Errno}
    {revents : List (BitVec 16)} (hmade : run.made.trace =
      run.before.trace ++ (os ++ [.polled (.worker run.task) ret errno revents])) :
    run.ret = ret := by
  obtain ⟨seg, -, hsplit⟩ := run.split_obs hmade
  rw [List.append_assoc, List.singleton_append] at hsplit
  rcases split_append hsplit with ⟨mid, hobs, -⟩ | ⟨os₁, -, hlast⟩
  · have hmem : .polled (.worker run.task) ret errno revents ∈ run.obs := by simp [hobs]
    exact absurd rfl (run.first _ hmem)
  · cases os₁ with
    | nil =>
        rw [List.nil_append, List.cons.injEq, Obs.polled.injEq] at hlast
        exact hlast.1.2.1
    | cons o rest => simp at hlast

/-- What the step of the call records, but for the return, was recorded before the
return. -/
theorem mem_obs {os : List Obs} (hmade : run.made.trace = run.before.trace ++ os) {o : Obs}
    (ho : o ∈ os) (hoff : o.polledBy = none) : o ∈ run.obs := by
  obtain ⟨seg, -, hsplit⟩ := run.split_obs hmade
  have hmem : o ∈ run.obs ++ [.polled (.worker run.task) run.ret run.errno run.revents] := by
    rw [hsplit]
    exact List.mem_append_left seg ho
  rcases List.mem_append.mp hmem with hmem | hmem
  · exact hmem
  · rw [List.mem_singleton.mp hmem] at hoff
    simp [Obs.polledBy] at hoff

/-- The wheel has started before the call. -/
theorem start_le (hread : .clock run.call.tick ∈ run.obs) :
    run.before.wheel.start ≤ run.call.tick := by
  have hclock := run.clock
  rw [run.trace, clocksOf_append, List.pairwise_append] at hclock
  refine hclock.2.2 _ (mem_clocksOf run.reached.start_read) _ ?_
  rw [clocksOf_append]
  exact List.mem_append_left _ (mem_clocksOf hread)

end TimedRun

section Returns

variable {c : TimedCall} (run : TimedRun c) {ms : Int}

/-- The time that a short call asks `add_timeout` for. -/
theorem TimedRun.expireAt_eq (hreq : c.requested = some ms) (hnonneg : 0 ≤ ms)
    (hle : ms ≤ kMaxTimeoutMs) : run.before.expireAt run.task run.call =
      toUInt64 ((run.call.tick : Int) + ms) := by
  unfold Sys.expireAt
  rw [run.fix_eq, TimedCall.timeout_eq hreq hnonneg hle,
    TimedCall.clampTimeout_of_range hnonneg hle, TimedCall.clampTimeout_of_range hnonneg hle]

/-- `add_timeout` accepts the time of a call that sleeps for a short time. -/
theorem TimedRun.accepts (hsleeps : c.sleeps = true) (hreq : c.requested = some ms)
    (hnonneg : 0 ≤ ms) (hle : ms ≤ kMaxTimeoutMs) (hread : .clock run.call.tick ∈ run.obs) :
    run.before.accepts run.task run.call := by
  have hstart := run.start_le hread
  have hfresh := run.fresh hsleeps
  rw [run.fix_eq, TimedCall.timeout_eq hreq hnonneg hle,
    TimedCall.clampTimeout_of_range hnonneg hle, TimedCall.clampTimeout_of_range hnonneg hle]
    at hfresh
  obtain ⟨pending, hholds⟩ := run.reached.armed run.tick_pos run.tick_lt
  have hpos := hholds.start_pos
  have hlt := hholds.start_lt
  have hsize : run.before.wheel.size = 60000 := run.reached.wheel_size
  unfold kTimerSize at hfresh
  unfold kMaxTimeoutMs at hle
  have hexpire : (run.before.expireAt run.task run.call : Int) = run.call.tick + ms := by
    rw [run.expireAt_eq hreq hnonneg hle]
    exact toUInt64_of_range (by omega) (by omega)
  unfold Sys.accepts Sys.distanceAt
  rw [Wheel.restart_of_pos hpos]
  refine ⟨hstart, by omega, ?_⟩
  rw [toInt32_of_range (by omega) (by omega)]
  omega

/-- What a call that `add_timeout` refuses records. -/
theorem Sys.rejected_trace (s : Sys) (t : TaskId) (call : PollCall) :
    ∃ os, (s.rejected t call).trace =
        s.trace ++ (os ++ [Obs.polled (.worker t) (-1) (some (s.refusal call)) []]) ∧
      Obs.clock call.tick ∈ os := by
  refine ⟨[Obs.index ((s.callstack.length : Int) - 1),
    Obs.fixed t s.now (s.tasks t) (s.fix t call).1 (s.fix t call).2.2] ++
    ((s.register call).2.1 ++ [Obs.clock call.tick] ++
      (delEpoll s.nextFrame call.fds (s.register call).1).2), ?_, by simp⟩
  simp [Sys.rejected, Sys.fixed]

/-- A call that sleeps has no descriptors that could make it leave for the native `poll`. -/
theorem TimedRun.sleeps_of_fallback (hreg : (run.before.register run.call).2.2 = true) :
    c.sleeps = false := by
  by_contra hsleeps
  rw [Bool.not_eq_false] at hsleeps
  unfold Sys.register at hreg
  rw [run.makes.fds hsleeps] at hreg
  simp [addEpoll] at hreg

theorem TimedCall.result_of_not_sleeps (h : c.sleeps = false) (ret : Int) :
    c.result ret = ret := by
  cases c <;> first | rfl | simp [TimedCall.sleeps] at h

/-- A call that was suspended and has returned 0, or had nothing to wait for, was woken when
its time was reached. -/
theorem TimedRun.expired_of_suspended {ph : Phase} {last : CoId}
    (ht : run.task < run.size.toNat)
    (hlast : run.before.callstack.dropLast.getLast? = some last)
    (hmade : run.made = run.before.suspended last ph run.task run.call)
    (hzero : c.result run.ret = 0) :
    ∃ reading ∈ clocksOf run.obs, run.before.expireAt run.task run.call ≤ reading := by
  have hne : CoId.worker run.task ≠ last := by
    obtain ⟨last', hlast', hne⟩ := run.inv.exists_last run.curr
    rw [hlast, Option.some_inj] at hlast'
    rw [hlast']
    exact hne.symm
  have hasleep : run.made.Asleep run.task ph run.before.nextFrame run.call.fds
      (run.before.expireAt run.task run.call) := by
    rw [hmade]
    refine ⟨?_, run.before.frameAt run.task run.call, Function.update_self .., rfl, rfl⟩
    rw [Sys.pc_suspended, Function.update_of_ne hne, Function.update_self]
  -- The step of the call reads the clock and records no return.
  obtain ⟨os, hos, hread, hoff⟩ : ∃ os, run.made.trace = run.before.trace ++ os ∧
      .clock run.call.tick ∈ os ∧ ∀ o ∈ os, o.polledBy = none := by
    rw [hmade]
    refine ⟨_, List.append_assoc .., by simp, ?_⟩
    intro o ho
    simp only [List.mem_append, List.mem_cons, List.not_mem_nil, or_false] at ho
    rcases ho with (rfl | rfl) | (ho | rfl) | rfl | rfl | rfl | rfl
    · rfl
    · rfl
    · obtain ⟨k, fd, rfl, -⟩ := mem_addEpoll_obs ho
      rfl
    all_goals rfl
  obtain ⟨seg, hseg, hsplit⟩ := run.split_obs hos
  obtain ⟨rest, hobs, rfl⟩ : ∃ rest, run.obs = os ++ rest ∧
      seg = rest ++ [.polled (.worker run.task) run.ret run.errno run.revents] := by
    rcases split_append hsplit.symm with ⟨mid, hmem, -⟩ | hrest
    · have hself := hoff (.polled (.worker run.task) run.ret run.errno run.revents)
        (by simp [hmem])
      simp [Obs.polledBy] at hself
    · exact hrest
  obtain ⟨w, fr, os', hw, hwtrace, ⟨later, hlater⟩, hfr, hparent, hfds, hexpire, hret⟩ :=
    run.reached_made.awoken ht hasleep run.run hseg
      (fun o ho => run.first o (by rw [hobs]; exact List.mem_append_right os ho))
  have hclock : (clocksOf w.trace).Pairwise (· ≤ ·) := by
    have hall := run.clock
    rw [hseg, ← hlater, List.append_assoc, ← List.append_assoc, ← hwtrace, clocksOf_append,
      List.pairwise_append] at hall
    exact hall.1
  have hquiet : fr.raiseCnt = 0 ∨ fr.fds = [] := by
    cases hsleeps : c.sleeps with
    | true => exact Or.inr (hfds.trans (run.makes.fds hsleeps))
    | false =>
        rw [TimedCall.result_of_not_sleeps hsleeps, hret] at hzero
        exact Or.inl (by exact_mod_cast hzero)
  have hreached := hw.onTime run.tick_pos run.tick_lt hclock _ fr hfr hparent hquiet
  rw [hexpire] at hreached
  refine ⟨lastClock w.trace, ?_, hreached⟩
  rw [hwtrace, hos, List.append_assoc, hobs, ← hlater, ← List.append_assoc os, clocksOf_append]
  exact List.mem_append_left _ (lastClock_mem (List.mem_append_left os' hread))

/-- A short call does not come back early. -/
theorem TimedRun.elapsed (hreq : c.requested = some ms) (hle : ms ≤ kMaxTimeoutMs)
    (hzero : c.result run.ret = 0) : c.Elapsed run.called run.returned := by
  refine ⟨ms, hreq, ?_⟩
  have hreturned := run.called_le_returned
  by_cases hnonneg : 0 ≤ ms
  swap
  · omega
  have hclamp := TimedCall.clampTimeout_of_range hnonneg hle
  have htask : ∀ {t}, run.before.curr = some (.worker t) → run.task = t := fun ht =>
    Sys.worker_unique run.curr ht
  have htr := run.inv.step_transition run.step
  generalize hmade : run.made = made at htr
  cases htr with
  | expired _ hcurr _ hexpired =>
      rw [← htask hcurr, run.fix_eq] at hexpired
      simp at hexpired
  | fallback _ hcurr _ _ hreg =>
      have hnative := run.native hreg
      rw [← htask hcurr] at hmade
      have hret : run.ret = run.call.native :=
        run.ret_eq (by rw [hmade]; exact List.append_assoc ..)
      rw [TimedCall.result_of_not_sleeps (run.sleeps_of_fallback hreg), hret] at hzero
      have hwaited := hnative hzero
      rwa [run.fix_eq, TimedCall.timeout_eq hreq hnonneg hle, hclamp, hclamp] at hwaited
  | reject _ hcurr _ _ _ hacc =>
      rw [← htask hcurr] at hmade hacc
      obtain ⟨os, hos, hread⟩ := run.before.rejected_trace run.task run.call
      rw [← hmade] at hos
      cases hsleeps : c.sleeps with
      | true =>
          have hmem := run.mem_obs hos (List.mem_append_left _ hread) rfl
          exact absurd (run.accepts hsleeps hreq hnonneg hle hmem) hacc
      | false =>
          rw [TimedCall.result_of_not_sleeps hsleeps, run.ret_eq hos] at hzero
          simp at hzero
  | suspend ht hcurr hpc hlast _ _ hacc =>
      rw [← htask hcurr] at hmade hacc ht
      obtain ⟨reading, hreading, hexpired⟩ :=
        run.expired_of_suspended ht hlast hmade hzero
      have hread : .clock run.call.tick ∈ run.obs :=
        run.mem_obs (by rw [hmade]; exact List.append_assoc ..) (by simp) rfl
      have hcalled := run.called_le _ (mem_clocksOf hread)
      have hback := run.le_returned reading hreading
      have hpaced := (run.paced run.task run.curr hacc).1
      have hexpire := run.expireAt_eq hreq hnonneg hle
      have hlower := hacc.2.1
      have hexact : (run.before.expireAt run.task run.call : Int) = run.call.tick + ms := by
        rw [hexpire]
        unfold kMaxTimeoutMs at hle
        exact toUInt64_of_range (by omega) (by omega)
      omega

end Returns

/-- A `poll_inner` call without descriptors. -/
def emptyPoll (timeout : Int) (pollfunc : Bool) (tick : Nat) : PollCall where
  fds := []
  timeout := timeout
  pollfunc := pollfunc
  addErr := fun _ => none
  delErr := fun _ => Errno.enoent
  tick := tick
  native := 0
  nativeRevents := []

section Early

theorem clampTimeout_clampTimeout (timeout : Int) :
    clampTimeout (clampTimeout timeout) = clampTimeout timeout := by
  unfold clampTimeout
  split
  · decide
  · rfl

/-- The call of a task without a deadline is that with the clamped timeout. -/
theorem emptyPoll_clamp {s : Sys} {t : TaskId} (hcurr : s.curr = some (.worker t))
    (htask : (s.coroutines (.worker t)).task = some t)
    (hlimit : (s.tasks t).attr.maxTimeoutMs = -1) (timeout : Int) (pollfunc : Bool)
    (tick : Nat) :
    s.step (.poll (emptyPoll timeout pollfunc tick)) =
        s.step (.poll (emptyPoll (clampTimeout timeout) false tick)) ∧
      s.expireAt t (emptyPoll timeout pollfunc tick) =
        s.expireAt t (emptyPoll (clampTimeout timeout) false tick) := by
  have hfix : ∀ timeout, fixCoroutineTimeout (s.tasks t) s.now timeout =
      (s.tasks t, clampTimeout timeout, false) := by
    intro timeout
    unfold fixCoroutineTimeout
    rw [if_pos hlimit]
  constructor
  · unfold Sys.step
    rw [hcurr]
    dsimp only
    rw [htask]
    cases s.pc (.worker t) with
    | user ph =>
        simp [Sys.pollInner, Sys.pollArm, emptyPoll, addEpoll, delErrno, hfix, Sys.emit,
          clampTimeout_clampTimeout]
    | _ => rfl
  · simp [Sys.expireAt, Sys.fix, emptyPoll, hfix, clampTimeout_clampTimeout]

/-- A thread made at 1000 in which a task makes a call at once, which is over at 1010. -/
theorem sleeping_run (timeout : Fin 11) :
    (((Sys.init 1000 1).step (.newTask plainAttr)).bind fun s =>
      (s.step (.poll (emptyPoll timeout false 1000))).bind fun u =>
      (u.step (.eventloop 1000)).bind fun w => (w.step (.iterate [] 1010)).bind fun x =>
      (x.step .drain).map fun v =>
        decide (s.curr = some (.worker 0) ∧ (s.coroutines (.worker 0)).task = some 0 ∧
          (s.tasks 0).attr = plainAttr ∧ s.expireAt 0 (emptyPoll timeout false 1000) < 1100 ∧
          s.wheel.start = 1000 ∧ w.wheel.start = 1000 ∧
          v.trace = s.trace ++ ((v.trace.drop s.trace.length).dropLast ++
            [.polled (.worker 0) 0 none []]) ∧
          (∀ o ∈ (v.trace.drop s.trace.length).dropLast, o.polledBy ≠ some (.worker 0)) ∧
          clocksOf s.trace = [1000] ∧
          clocksOf (v.trace.drop s.trace.length).dropLast = [1000, 1000, 1010])) =
      some true := by
  decide +kernel +revert

theorem paced_newTask (s : Sys) (attr : TaskAttr) : s.Paced (.newTask attr) := trivial

/-- A call whose timeout is not negative, or `-1`, can be over after ten milliseconds. -/
theorem exists_sleepingRun (c : TimedCall) (htimeout : -1 ≤ c.timeout) :
    ∃ run : TimedRun c, run.returned = run.called + 10 ∧ run.ret = 0 := by
  obtain ⟨timeout, hclamp⟩ : ∃ timeout : Fin 11, clampTimeout c.timeout = timeout.val := by
    have hrange : 0 ≤ clampTimeout c.timeout ∧ clampTimeout c.timeout < 11 := by
      unfold clampTimeout kMaxTimeoutMs
      split <;> omega
    exact ⟨⟨(clampTimeout c.timeout).toNat, by omega⟩, (Int.toNat_of_nonneg hrange.1).symm⟩
  obtain ⟨s, hs, h⟩ := Option.bind_eq_some_iff.mp (sleeping_run timeout)
  obtain ⟨u, hu, h⟩ := Option.bind_eq_some_iff.mp h
  obtain ⟨w, hw, h⟩ := Option.bind_eq_some_iff.mp h
  obtain ⟨x, hx, h⟩ := Option.bind_eq_some_iff.mp h
  obtain ⟨v, hv, h⟩ := Option.map_eq_some_iff.mp h
  rw [decide_eq_true_eq] at h
  obtain ⟨hcurr, htask, hattr, hexpire, hstart, hstart', htrace, hfirst, hbefore, hobs⟩ := h
  have hlimit : (s.tasks 0).attr.maxTimeoutMs = -1 := by rw [hattr]; rfl
  obtain ⟨hstep, hexpireAt⟩ := emptyPoll_clamp hcurr htask hlimit c.timeout (!c.sleeps) 1000
  rw [← hclamp] at hu hexpire
  rw [← hstep] at hu
  rw [← hexpireAt] at hexpire
  refine ⟨{
    tick := 1000
    size := 1
    before := s
    made := u
    after := v
    task := 0
    call := emptyPoll c.timeout (!c.sleeps) 1000
    obs := (v.trace.drop s.trace.length).dropLast
    ret := 0
    errno := none
    revents := []
    called := 1000
    returned := 1010
    tick_pos := by decide
    tick_lt := by decide
    reached := Reaches.snoc (Reaches.refl _) (paced_newTask _ _) hs
    curr := hcurr
    unlimited := hlimit
    makes := ⟨rfl, rfl, fun _ => rfl⟩
    paced := ?_
    step := hu
    run := ?_
    trace := htrace
    first := hfirst
    clock := ?_
    fresh := ?_
    le_called := ?_
    called_le := ?_
    le_returned := ?_
    called_le_returned := by decide
    native := ?_ }, rfl, rfl⟩
  · intro t ht _
    obtain rfl := Sys.worker_unique hcurr ht
    rw [hstart]
    omega
  · have hpaced : w.Paced (.iterate [] 1010) := by
      simp only [Sys.Paced, hstart']
      omega
    exact (((Reaches.refl u).snoc (a := .eventloop 1000) trivial hw).snoc hpaced hx).snoc
      (a := .drain) trivial hv
  · rw [htrace, clocksOf_append, clocksOf_append, hbefore, hobs]
    decide
  · intro _
    have hclamped := clampTimeout_le (s.fix 0 (emptyPoll c.timeout (!c.sleeps) 1000)).2.1
    rw [hstart]
    simp only [emptyPoll, kMaxTimeoutMs, kTimerSize] at hclamped ⊢
    omega
  · rw [hbefore]
    decide
  · rw [hobs]
    decide
  · rw [hobs]
    decide
  · intro hreg
    simp [Sys.register, emptyPoll, addEpoll] at hreg

/-- A thread in which a task is about to make a call, at a time that no timeout can bring
below zero. -/
theorem early_run :
    ((Sys.init (2 ^ 32) 1).step (.newTask plainAttr)).map (fun s =>
      decide (s.curr = some (.worker 0) ∧ (s.coroutines (.worker 0)).task = some 0 ∧
        s.pc (.worker 0) = .user .fn ∧ (s.tasks 0).attr = plainAttr ∧
        s.wheel.start = 2 ^ 32 ∧ clocksOf s.trace = [2 ^ 32])) = some true := by
  decide +kernel

theorem TimedCall.timeout_ge {c : TimedCall} (hsleeps : c.sleeps = true) :
    -2 ^ 31 ≤ c.timeout := by
  cases c with
  | poll => simp [TimedCall.sleeps] at hsleeps
  | _ =>
      unfold TimedCall.timeout doSleep
      exact toInt32_ge _

/-- A task without a deadline asks for a time that has passed. -/
theorem emptyPoll_rejected {s : Sys} (hcurr : s.curr = some (.worker 0))
    (htask : (s.coroutines (.worker 0)).task = some 0) (hpc : s.pc (.worker 0) = .user .fn)
    (hattr : (s.tasks 0).attr = plainAttr) {timeout : Int} (hlo : -2 ^ 31 ≤ timeout)
    (hhi : timeout < -1) (pollfunc : Bool) :
    ¬ s.accepts 0 (emptyPoll timeout pollfunc (2 ^ 32)) ∧
      s.step (.poll (emptyPoll timeout pollfunc (2 ^ 32))) =
        some (s.rejected 0 (emptyPoll timeout pollfunc (2 ^ 32))) := by
  let call := emptyPoll timeout pollfunc (2 ^ 32)
  have hlimit : (s.tasks 0).attr.maxTimeoutMs = -1 := by rw [hattr]; rfl
  have hfix : s.fix 0 call = (s.tasks 0, timeout, false) := by
    unfold Sys.fix fixCoroutineTimeout clampTimeout kMaxTimeoutMs
    rw [if_pos hlimit, if_neg (by simp only [call, emptyPoll]; omega)]
    rfl
  have hrefused : ¬ s.accepts 0 call := by
    rintro ⟨-, hle, -⟩
    have hexpire : s.expireAt 0 call = toUInt64 ((2 ^ 32 : Nat) + timeout) := by
      unfold Sys.expireAt clampTimeout kMaxTimeoutMs
      rw [hfix, if_neg (by dsimp only; omega)]
      rfl
    have hexact := toUInt64_of_range (x := (2 ^ 32 : Nat) + timeout) (by omega) (by omega)
    rw [hexpire] at hle
    have htick : call.tick = 2 ^ 32 := rfl
    omega
  refine ⟨hrefused, ?_⟩
  have hpoll : s.step (.poll call) = some (s.pollInner (.worker 0) .fn 0 call) := by
    simp [Sys.step, hcurr, hpc, htask, hattr, plainAttr]
  have hreg : (s.register call).2.2 = false := rfl
  rw [hpoll, Inv.pollInner_reject (by rw [hfix]) hreg hrefused]

/-- A call that sleeps and whose timeout has become negative comes back at once. -/
theorem exists_refusedRun (c : TimedCall) (hsleeps : c.sleeps = true)
    (htimeout : c.timeout < -1) : ∃ run : TimedRun c, run.returned = run.called := by
  obtain ⟨s, hs, h⟩ := Option.map_eq_some_iff.mp early_run
  rw [decide_eq_true_eq] at h
  obtain ⟨hcurr, htask, hpc, hattr, hstart, hbefore⟩ := h
  have hlimit : (s.tasks 0).attr.maxTimeoutMs = -1 := by rw [hattr]; rfl
  let call := emptyPoll c.timeout (!c.sleeps) (2 ^ 32)
  have hreached : Sys.Reached Sys.Paced (2 ^ 32) 1 s :=
    Reaches.snoc (Reaches.refl _) (paced_newTask _ _) hs
  obtain ⟨hrefused, hstep⟩ : ¬ s.accepts 0 call ∧ s.step (.poll call) =
      some (s.rejected 0 call) :=
    emptyPoll_rejected hcurr htask hpc hattr (TimedCall.timeout_ge hsleeps) htimeout (!c.sleeps)
  have htrace : (s.rejected 0 call).trace = s.trace ++
      ([Obs.index ((s.callstack.length : Int) - 1),
        Obs.fixed 0 s.now (s.tasks 0) (s.fix 0 call).1 (s.fix 0 call).2.2,
        Obs.clock (2 ^ 32)] ++ [Obs.polled (.worker 0) (-1) (some Errno.einval) []]) := by
    simp [Sys.rejected, Sys.fixed, Sys.register, Sys.refusal, call, emptyPoll, addEpoll, delEpoll,
      delErrno]
  refine ⟨{
    tick := 2 ^ 32
    size := 1
    before := s
    made := s.rejected 0 call
    after := s.rejected 0 call
    task := 0
    call := call
    obs := _
    ret := -1
    errno := some Errno.einval
    revents := []
    called := 2 ^ 32
    returned := 2 ^ 32
    tick_pos := by decide
    tick_lt := by decide
    reached := hreached
    curr := hcurr
    unlimited := hlimit
    makes := ⟨rfl, rfl, fun _ => rfl⟩
    paced := ?_
    step := hstep
    run := Reaches.refl _
    trace := htrace
    first := ?_
    clock := ?_
    fresh := ?_
    le_called := ?_
    called_le := ?_
    le_returned := ?_
    called_le_returned := Nat.le_refl _
    native := ?_ }, rfl⟩
  · intro t ht hacc
    obtain rfl := Sys.worker_unique hcurr ht
    exact absurd hacc hrefused
  · simp [Obs.polledBy]
  · rw [htrace, clocksOf_append, hbefore]
    simp [clocksOf]
  · intro _
    have hclamped := clampTimeout_le (s.fix 0 call).2.1
    rw [hstart]
    simp only [call, emptyPoll, kMaxTimeoutMs, kTimerSize] at hclamped ⊢
    omega
  · rw [hbefore]
    simp
  · simp [clocksOf]
  · simp [clocksOf]
  · intro hreg
    simp [Sys.register, call, emptyPoll, addEpoll] at hreg

end Early

/-- Whatever the thread does, a call comes back no earlier than it was asked to exactly when
it was asked for at most ten milliseconds. -/
theorem timed_return_iff (c : TimedCall) :
    (∀ run : TimedRun c, c.result run.ret = 0 → c.Elapsed run.called run.returned) ↔
      ∃ ms ≤ kMaxTimeoutMs, c.requested = some ms := by
  constructor
  · intro hall
    by_contra hlong
    have hmore : ∀ ms, c.requested = some ms → kMaxTimeoutMs < ms := by
      intro ms hreq
      by_contra hle
      exact hlong ⟨ms, by omega, hreq⟩
    unfold kMaxTimeoutMs at hmore
    by_cases htimeout : -1 ≤ c.timeout
    · obtain ⟨run, hreturned, hret⟩ := exists_sleepingRun c htimeout
      have hzero : c.result run.ret = 0 := by
        rw [hret]
        cases c <;> rfl
      obtain ⟨ms, hreq, hle⟩ := hall run hzero
      have := hmore ms hreq
      omega
    · cases hsleeps : c.sleeps with
      | true =>
          obtain ⟨run, hreturned⟩ := exists_refusedRun c hsleeps (by omega)
          have hzero : c.result run.ret = 0 := by
            cases c <;> first | rfl | simp [TimedCall.sleeps] at hsleeps
          obtain ⟨ms, hreq, hle⟩ := hall run hzero
          have := hmore ms hreq
          omega
      | false =>
          -- A negative timeout of `poll` other than `-1` asks for no time.
          cases c with
          | poll timeout =>
              have hne : timeout ≠ -1 := fun heq => htimeout (by simp [TimedCall.timeout, heq])
              have := hmore timeout (by simp [TimedCall.requested, hne])
              simp only [TimedCall.timeout] at htimeout
              omega
          | _ => simp [TimedCall.sleeps] at hsleeps
  · rintro ⟨ms, hle, hreq⟩ run hzero
    exact run.elapsed hreq hle hzero

/-- A task sleeps for one second, and is back after ten milliseconds. -/
theorem sleep_returns_early :
    ∃ run : TimedRun (.sleep 1), run.returned = run.called + 10 ∧
      (TimedCall.sleep 1).result run.ret = 0 ∧
      ¬ (TimedCall.sleep 1).Elapsed run.called run.returned := by
  obtain ⟨run, hreturned, -⟩ := exists_sleepingRun (.sleep 1) (by decide)
  refine ⟨run, hreturned, rfl, ?_⟩
  rintro ⟨ms, hreq, hle⟩
  obtain rfl : 1000 = ms := Option.some_inj.mp hreq
  omega

end Libcr
