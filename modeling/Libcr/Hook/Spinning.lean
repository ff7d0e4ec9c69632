import Libcr.Hook.Turns

/-!
# Retries that do not yield

The retry loops wait once between two native calls. The wait is a `poll_inner` call of
the thread, which switches the coroutine out only after `add_timeout` has accepted its
time. When the clock is behind the last iteration of the event loop, or ahead of it by
more than the wheel spans, `poll_inner` fails at once, and the loop takes the failure for
readiness.
-/

namespace Libcr

/-- A native call that moves bytes or accepts a connection. -/
def IoObs.isIo : IoObs → Bool
  | .native (.transfer ..) _ | .native (.accept _) _ => true
  | _ => false

/-- A call of `poll_inner`. -/
def IoObs.isWait : IoObs → Bool
  | .waited .. => true
  | _ => false

/-- The arguments of the waits of a log. -/
def waitsOf (log : List IoObs) : List (List PollFd × Int) :=
  log.filterMap fun
    | .waited fds timeout _ _ => some (fds, timeout)
    | .native .. => none

/-- The coroutine on top of the call stack is switched out to its resumer by this
`poll_inner` call. -/
def Sys.SwitchesOut (s : Sys) (call : PollCall) : Prop :=
  ∃ u os size, s.step (.poll call) = some u ∧ u.trace = s.trace ++ os ∧ .yield size ∈ os ∧
    u.callstack = s.callstack.dropLast

/-- How a thread makes the waits of a hooked call of its task `t` on a socket: in the state
`thread i` the `i`-th wait begins, as the `poll_inner` call `calls i`. -/
structure Hosted (st : HookSys) (log : List IoObs) (t : TaskId) (thread : Nat → Sys)
    (calls : Nat → PollCall) : Prop where
  reached : ∃ tick size, Sys.Reached always tick size (thread 0)
  curr : ∀ i < (waitsOf log).length, (thread i).curr = some (.worker t)
  attr : ∀ i < (waitsOf log).length, ((thread i).tasks t).attr = st.task.attr
  step : ∀ i < (waitsOf log).length, ∃ u, (thread i).step (.poll (calls i)) = some u ∧
    (i + 1 < (waitsOf log).length → Reaches Sys.step always u (thread (i + 1)))
  args : ∀ i < (waitsOf log).length,
    (waitsOf log)[i]? = some ((calls i).fds, (calls i).timeout)
  socket : ∀ i < (waitsOf log).length, ∀ j, (calls i).addErr j ≠ some Errno.eperm

/-- Two native calls of a log with no other between them. -/
structure Consecutive (log before : List IoObs) (o : IoObs) (mid : List IoObs) (o' : IoObs)
    (after : List IoObs) : Prop where
  log_eq : log = before ++ o :: (mid ++ o' :: after)
  first : o.isIo = true
  second : o'.isIo = true
  between : ∀ x ∈ mid, x.isIo = false

/-- Between two consecutive native calls the coroutine is switched out. -/
def Switching (log : List IoObs) (thread : Nat → Sys) (calls : Nat → PollCall) : Prop :=
  ∀ before o mid o' after, Consecutive log before o mid o' after →
    ∃ m₁ w m₂, mid = m₁ ++ w :: m₂ ∧ w.isWait = true ∧
      (thread (waitsOf (before ++ o :: m₁)).length).SwitchesOut
        (calls (waitsOf (before ++ o :: m₁)).length)

/-- The `i`-th wait of a log lies between two consecutive native calls. -/
def RetryWait (log : List IoObs) (i : Nat) : Prop :=
  ∃ before o m₁ w m₂ o' after, Consecutive log before o (m₁ ++ w :: m₂) o' after ∧
    w.isWait = true ∧ i = (waitsOf (before ++ o :: m₁)).length

section Logs

/-- The native calls and the waits of a log. -/
def ioLog (log : List IoObs) : List IoObs := log.filter fun o => o.isIo || o.isWait

/-- The native calls and the waits of a log alternate. -/
def Alternating (log : List IoObs) : Prop :=
  (ioLog log).IsChain fun o o' => o.isIo ≠ o'.isIo

/-- The same, and the next one is a wait. -/
structure Retrying (log : List IoObs) : Prop where
  alternating : Alternating log
  last : ∀ o ∈ (ioLog log).getLast?, o.isIo = true

variable {log : List IoObs}

@[simp] theorem ioLog_append (log log' : List IoObs) :
    ioLog (log ++ log') = ioLog log ++ ioLog log' :=
  List.filter_append ..

theorem IoObs.isIo_of_isWait {o : IoObs} (h : o.isWait = true) : o.isIo = false := by
  cases o with
  | native => simp [IoObs.isWait] at h
  | waited => rfl

theorem length_waitsOf (log : List IoObs) : (waitsOf log).length = log.countP IoObs.isWait := by
  induction log with
  | nil => rfl
  | cons o rest ih =>
      cases o with
      | native => simpa [waitsOf, List.countP_cons, IoObs.isWait] using ih
      | waited => simpa [waitsOf, List.countP_cons, IoObs.isWait] using ih

theorem retrying_nil : Retrying [] := ⟨List.isChain_nil, by simp [ioLog]⟩

/-- What is neither a native call nor a wait does not matter. -/
theorem Retrying.congr (h : Retrying log) {log' : List IoObs} (heq : ioLog log' = ioLog log) :
    Retrying log' := by
  obtain ⟨halternating, hlast⟩ := h
  unfold Alternating at halternating
  rw [← heq] at halternating hlast
  exact ⟨halternating, hlast⟩

/-- The first native call. -/
theorem retrying_io {o : IoObs} (hempty : ioLog log = []) (ho : o.isIo = true) :
    Retrying (log ++ [o]) := by
  have hlog : ioLog (log ++ [o]) = [o] := by
    rw [ioLog_append, hempty]
    simp [ioLog, ho]
  refine ⟨?_, ?_⟩
  · rw [Alternating, hlog]
    exact List.isChain_singleton o
  · rw [hlog]
    simpa using ho

/-- A wait. -/
theorem Retrying.wait (h : Retrying log) {log' : List IoObs} {w : IoObs}
    (hw : w.isWait = true) (hlog : ioLog log' = ioLog log ++ [w]) : Alternating log' := by
  rw [Alternating, hlog]
  refine List.isChain_append.mpr ⟨h.alternating, List.isChain_singleton w, ?_⟩
  intro x hx y hy
  obtain rfl : w = y := by simpa using hy
  rw [h.last x hx, IoObs.isIo_of_isWait hw]
  decide

/-- A wait and a native call. -/
theorem Retrying.turn (h : Retrying log) {log' : List IoObs} {w o : IoObs}
    (hw : w.isWait = true) (hlog : ioLog log' = ioLog log ++ [w]) (ho : o.isIo = true) :
    Retrying (log' ++ [o]) := by
  have hlast : ioLog (log' ++ [o]) = ioLog log' ++ [o] := by simp [ioLog, ho]
  refine ⟨?_, ?_⟩
  · rw [Alternating, hlast]
    refine List.isChain_append.mpr ⟨h.wait hw hlog, List.isChain_singleton o, ?_⟩
    intro x hx y hy
    obtain rfl : o = y := by simpa using hy
    obtain rfl : w = x := by simpa [hlog] using hx
    rw [IoObs.isIo_of_isWait hw, ho]
    decide
  · rw [hlast]
    simpa using ho

/-- Between two consecutive native calls of an alternating log there is one wait. -/
theorem Alternating.countP_between {before mid after : List IoObs} {o o' : IoObs}
    (h : Alternating log) (hcons : Consecutive log before o mid o' after) :
    mid.countP IoObs.isWait = 1 := by
  obtain ⟨rfl, ho, ho', hmid⟩ := hcons
  have hsegment : ioLog (o :: (mid ++ [o'])) = o :: (mid.filter IoObs.isWait ++ [o']) := by
    have hfilter : ioLog mid = mid.filter IoObs.isWait :=
      List.filter_congr fun x hx => by simp [hmid x hx]
    rw [← List.singleton_append, ioLog_append, ioLog_append, hfilter]
    simp [ioLog, ho, ho']
  have hchain : (o :: (mid.filter IoObs.isWait ++ [o'])).IsChain
      fun o o' => o.isIo ≠ o'.isIo := by
    rw [← hsegment]
    refine h.infix ⟨ioLog before, ioLog after, ?_⟩
    simp [← ioLog_append]
  rw [List.countP_eq_length_filter]
  have hwait : ∀ x ∈ mid.filter IoObs.isWait, x.isIo = false :=
    fun x hx => hmid x (List.mem_of_mem_filter hx)
  match hfilter : mid.filter IoObs.isWait with
  | [] =>
      rw [hfilter] at hchain
      simp [ho, ho'] at hchain
  | [w] => rfl
  | w :: w' :: rest =>
      rw [hfilter] at hchain hwait
      have hfirst := hwait w (by simp)
      have hsecond := hwait w' (by simp)
      simp [hfirst, hsecond] at hchain

end Logs

section Calls

variable {st : HookSys} {fd : Fd}

theorem ioLog_native {call : NativeCall}
    (h : (IoObs.native call (st.native call).1).isIo = false) :
    ioLog (st.native call).2.log = ioLog st.log := by
  rw [HookSys.native_log, ioLog_append]
  simp [ioLog, h, IoObs.isWait]

theorem ioLog_fcntlGetfl (st : HookSys) (fd : Fd) :
    ioLog (st.fcntlGetfl fd).2.log = ioLog st.log := by
  unfold HookSys.fcntlGetfl
  split
  · rfl
  · exact ioLog_native rfl

theorem ioLog_fcntlSetfl (st : HookSys) (fd : Fd) (param : BitVec 32) :
    ioLog (st.fcntlSetfl fd param).2.log = ioLog st.log := by
  unfold HookSys.fcntlSetfl
  split
  · rfl
  · dsimp only
    generalize (if st.isEnableSysHook ∧ (st.getByFd fd).isSome then param ||| oNonblock
      else param) = flag
    split
    · rw [HookSys.setUserFlag_log]
      exact ioLog_native rfl
    · exact ioLog_native rfl

theorem ioLog_accepted (st : HookSys) (fd : Fd) :
    ioLog (st.accepted fd).2.log = ioLog st.log := by
  unfold HookSys.accepted
  dsimp only
  split <;> simp only [HookSys.setUserFlag_log, ioLog_fcntlSetfl, ioLog_fcntlGetfl,
    HookSys.allocByFd_log]

theorem ioLog_pollInner (st : HookSys) (fds : List PollFd) (timeout : Int) :
    ∃ w : IoObs, w.isWait = true ∧
      ioLog (st.pollInner fds timeout).2.log = ioLog st.log ++ [w] := by
  obtain ⟨-, hlog, -⟩ := st.pollInner_spec fds timeout
  rw [hlog, ioLog_append]
  exact ⟨_, rfl, rfl⟩

theorem ioLog_close (st : HookSys) (fd : Fd) :
    ioLog (st.close fd).2.log = ioLog st.log := by
  rw [HookSys.close_log, ioLog_append]
  exact List.append_nil _

theorem ioLog_waitIoReady (st : HookSys) (fd : Fd) (events : BitVec 16) (timeout : Int) :
    ∃ w : IoObs, w.isWait = true ∧
      ioLog (st.waitIoReady fd events timeout).2.log = ioLog st.log ++ [w] := by
  obtain ⟨w, hw, hlog⟩ := ioLog_pollInner st [⟨fd, events⟩] timeout
  refine ⟨w, hw, ?_⟩
  unfold HookSys.waitIoReady
  dsimp only
  split
  · exact (ioLog_close ..).trans hlog
  · exact hlog

/-- Where a retry loop is. -/
def Turning : Outcome → Prop
  | .inl p => Retrying p.st.log
  | .inr r => Alternating r.2.log

theorem turning_receiveTurn {f : Transfer} {nbyte : Nat} {timeout : Int} {p : Progress}
    (h : Turning (.inl p)) : Turning (HookSys.receiveTurn f fd nbyte timeout p) := by
  obtain ⟨w, hw, hlog⟩ :=
    ioLog_waitIoReady p.st fd (pollIn ||| pollErr ||| pollHup) timeout
  unfold HookSys.receiveTurn
  dsimp only
  split
  · exact Retrying.wait h hw hlog
  · have hturn : Retrying ((p.st.waitIoReady fd (pollIn ||| pollErr ||| pollHup)
        timeout).2.native (.transfer f fd p.n (nbyte - p.n))).2.log :=
      Retrying.turn h hw hlog rfl
    split
    · exact hturn.alternating
    · split <;> split
      · exact hturn
      · exact hturn.alternating
      · exact hturn
      · exact hturn.alternating

theorem turning_transmitTurn {f : Transfer} {nbyte : Nat} {timeout : Int} {p : Progress}
    (h : Turning (.inl p)) : Turning (HookSys.transmitTurn f fd nbyte timeout p) := by
  obtain ⟨w, hw, hlog⟩ :=
    ioLog_waitIoReady p.st fd (pollOut ||| pollErr ||| pollHup) timeout
  unfold HookSys.transmitTurn
  dsimp only
  split
  · split
    · exact Retrying.wait h hw hlog
    · have hturn : Retrying ((p.st.waitIoReady fd (pollOut ||| pollErr ||| pollHup)
          timeout).2.native (.transfer f fd p.n (nbyte - p.n))).2.log :=
        Retrying.turn h hw hlog rfl
      split
      · exact hturn.alternating
      · exact hturn
  · exact Retrying.alternating h

theorem turning_acceptTurn {p : Progress} (h : Turning (.inl p)) :
    Turning (HookSys.acceptTurn fd p) := by
  obtain ⟨w, hw, hlog⟩ :=
    ioLog_pollInner p.st [⟨fd, pollIn ||| pollErr ||| pollHup⟩] (-1)
  unfold HookSys.acceptTurn
  dsimp only
  split
  · split
    · split
      · exact Retrying.wait h hw ((ioLog_close ..).trans hlog)
      · exact Retrying.turn h hw hlog rfl
    · exact Retrying.alternating h
  · exact (Retrying.congr h (ioLog_accepted p.st p.ret)).alternating

theorem Turning.alternating {o : Outcome} (h : Turning o) : Alternating o.log := by
  cases o with
  | inl p => exact Retrying.alternating h
  | inr r => exact h

/-- The native calls and the waits of a hooked call alternate. -/
theorem alternating_call (hlog : st.log = []) (fuel : Nat) (call : IoCall) :
    Alternating (st.call fuel call).log := by
  have hnil : ioLog st.log = [] := by rw [hlog]; rfl
  have hnative : ∀ call, (IoObs.native call (st.native call).1).isIo = true →
      Retrying (st.native call).2.log := fun _ ho => retrying_io hnil ho
  have hreceive : ∀ f fd nbyte, Turning (st.receive f fd nbyte fuel) := by
    intro f fd nbyte
    unfold HookSys.receive
    split
    · exact (hnative _ rfl).alternating
    · split
      · exact (hnative _ rfl).alternating
      · exact loop_invariant (fun _ hp => turning_receiveTurn hp) fuel
          (show Retrying st.log from hlog ▸ retrying_nil)
  have htransmit : ∀ f fd nbyte, Turning (st.transmit f fd nbyte fuel) := by
    intro f fd nbyte
    unfold HookSys.transmit
    split
    · exact (hnative _ rfl).alternating
    · split
      · exact (hnative _ rfl).alternating
      · dsimp only
        split
        · exact (hnative _ rfl).alternating
        · exact loop_invariant (fun _ hp => turning_transmitTurn hp) fuel (hnative _ rfl)
  cases call with
  | read fd nbyte => exact (hreceive .read fd nbyte).alternating
  | recv fd nbyte => exact (hreceive .recv fd nbyte).alternating
  | write fd nbyte => exact (htransmit .write fd nbyte).alternating
  | send fd nbyte => exact (htransmit .send fd nbyte).alternating
  | accept fd =>
      refine Turning.alternating (o := st.accept fd fuel) ?_
      unfold HookSys.accept
      split
      · exact (hnative _ rfl).alternating
      · refine loop_invariant (fun _ hp => turning_acceptTurn hp) fuel (retrying_io ?_ rfl)
        split
        · rw [ioLog_fcntlSetfl, ioLog_fcntlGetfl, HookSys.allocByFd_log, hnil]
        · exact hnil

end Calls

section Thread

variable {n : Nat} {s : Sys} {t : TaskId} {call : PollCall}

/-- On a socket the registration loop is never left for the native `poll`. -/
theorem addEpoll_socket (hsocket : ∀ j, call.addErr j ≠ some Errno.eperm) (f : FrameId)
    (i : Nat) (rest : List PollFd) (set : Fd → Option Registration) :
    (addEpoll call f i rest set).2.2 = false := by
  induction rest generalizing i set with
  | nil => rfl
  | cons p rest ih =>
      unfold addEpoll
      split
      · split
        · exact ih ..
        · next e hctl =>
            have hne : e ≠ Errno.eperm := by
              rintro rfl
              unfold ctlAdd at hctl
              split at hctl
              · simp [Errno.eexist, Errno.eperm] at hctl
              · next herr =>
                  simp only [Prod.mk.injEq, Option.some_inj] at hctl
                  exact hsocket i (by rw [herr, hctl.2])
              · simp at hctl
            rw [if_neg fun h => hne h.1]
            exact ih ..
      · exact ih ..

/-- A task without a deadline that waits on a socket is switched out exactly when
`add_timeout` accepts the time. -/
theorem Inv.switchesOut_iff (h : Inv n s) (hcurr : s.curr = some (.worker t))
    (hlimit : (s.tasks t).attr.maxTimeoutMs = -1)
    (hsocket : ∀ j, call.addErr j ≠ some Errno.eperm) {u : Sys}
    (hstep : s.step (.poll call) = some u) : s.SwitchesOut call ↔ s.accepts t call := by
  have hfix : (s.fix t call).2.2 = false := by
    unfold Sys.fix fixCoroutineTimeout
    rw [if_pos hlimit]
  have hreg : (s.register call).2.2 = false := addEpoll_socket hsocket ..
  have hne : s.callstack ≠ s.callstack.dropLast := by
    intro heq
    have hnil : s.callstack ≠ [] := by
      rintro hnil
      simp [Sys.curr, hnil] at hcurr
    have hlen := congrArg List.length heq
    rw [List.length_dropLast] at hlen
    have := List.length_pos_iff.mpr hnil
    omega
  have hcurr' : ∀ {t'}, s.curr = some (.worker t') → t' = t := by
    intro t' ht'
    rw [hcurr] at ht'
    simpa using ht'.symm
  have htr := h.step_transition hstep
  unfold Sys.SwitchesOut
  rw [hstep]
  cases htr with
  | expired _ hc _ hexp =>
      obtain rfl := hcurr' hc
      rw [hfix] at hexp
      simp at hexp
  | fallback _ hc _ _ hback =>
      rw [hreg] at hback
      simp at hback
  | @reject ph t' _ _ hc _ _ _ hacc =>
      obtain rfl := hcurr' hc
      refine iff_of_false ?_ hacc
      rintro ⟨u, os, size, hu, -, -, hstack⟩
      obtain rfl := Option.some_inj.mp hu
      exact hne hstack
  | @suspend ph t' _ last _ hc _ _ _ _ hacc =>
      obtain rfl := hcurr' hc
      exact iff_of_true ⟨_, _, s.callstack.length, rfl, List.append_assoc .., by simp, rfl⟩ hacc

end Thread

section Hosting

variable {st : HookSys} {log : List IoObs} {t : TaskId} {thread : Nat → Sys}
  {calls : Nat → PollCall}

/-- The states in which the waits of a call begin are states of one thread. -/
theorem Hosted.reached_at (h : Hosted st log t thread calls) :
    ∃ tick size, ∀ i < (waitsOf log).length, Sys.Reached always tick size (thread i) := by
  obtain ⟨tick, size, hzero⟩ := h.reached
  refine ⟨tick, size, ?_⟩
  intro i
  induction i with
  | zero => exact fun _ => hzero
  | succ i ih =>
      intro hi
      obtain ⟨u, hstep, hnext⟩ := h.step i (by omega)
      exact Reaches.trans (Reaches.snoc (ih (by omega)) trivial hstep) (hnext hi)

/-- Which of its waits switch a call out. -/
theorem Hosted.switchesOut_iff (h : Hosted st log t thread calls)
    (hlimit : st.task.attr.maxTimeoutMs = -1) {i : Nat} (hi : i < (waitsOf log).length) :
    (thread i).SwitchesOut (calls i) ↔ (thread i).accepts t (calls i) := by
  obtain ⟨tick, size, hreached⟩ := h.reached_at
  obtain ⟨u, hstep, -⟩ := h.step i hi
  exact (Sys.Reached.inv (hreached i hi)).switchesOut_iff (h.curr i hi)
    (by rw [h.attr i hi, hlimit]) (h.socket i hi) hstep

/-- The number of a wait is below the number of waits. -/
theorem RetryWait.lt {i : Nat} (h : RetryWait log i) : i < (waitsOf log).length := by
  obtain ⟨before, o, m₁, w, m₂, o', after, hcons, hw, rfl⟩ := h
  simp only [length_waitsOf, hcons.log_eq, List.countP_append, List.countP_cons, hw, if_true]
  omega

/-- The wait between two consecutive native calls is the first one after them. -/
theorem Alternating.waits_eq {before m₁ m₂ after : List IoObs} {o w o' : IoObs}
    (h : Alternating log) (hcons : Consecutive log before o (m₁ ++ w :: m₂) o' after)
    (hw : w.isWait = true) :
    (waitsOf (before ++ o :: m₁)).length = (waitsOf before).length := by
  have hone := h.countP_between hcons
  have ho : o.isWait = false := by
    have hfirst := hcons.first
    cases o with
    | native => rfl
    | waited => simp [IoObs.isIo] at hfirst
  simp only [List.countP_append, List.countP_cons, hw, if_true] at hone
  simp only [length_waitsOf, List.countP_append, List.countP_cons, ho, Bool.false_eq_true,
    if_false]
  omega

end Hosting

/-- A hooked call of a task without a deadline on a socket is switched out between any two
consecutive native calls exactly when `add_timeout` accepts the time of every wait between
them. -/
theorem retry_switches_iff {st : HookSys} {call : IoCall} {fuel : Nat} {t : TaskId}
    {thread : Nat → Sys} {calls : Nat → PollCall}
    (hlimit : st.task.attr.maxTimeoutMs = -1) (hlog : st.log = [])
    (hhosted : Hosted st (st.call fuel call).log t thread calls) :
    Switching (st.call fuel call).log thread calls ↔
      ∀ i, RetryWait (st.call fuel call).log i → (thread i).accepts t (calls i) := by
  have halternating := alternating_call hlog fuel call
  generalize (st.call fuel call).log = log at hhosted halternating
  constructor
  · intro hswitching i hi
    have hlt := hi.lt
    obtain ⟨before, o, m₁, w, m₂, o', after, hcons, hw, rfl⟩ := hi
    obtain ⟨m₁', w', m₂', hmid, hw', hout⟩ := hswitching before o _ o' after hcons
    have heq := halternating.waits_eq hcons hw
    rw [hmid] at hcons
    rw [halternating.waits_eq hcons hw', ← heq] at hout
    exact (hhosted.switchesOut_iff hlimit hlt).mp hout
  · intro haccepts before o mid o' after hcons
    have hone := halternating.countP_between hcons
    obtain ⟨w, hmem, hw⟩ :=
      List.countP_pos_iff.mp (Nat.lt_of_lt_of_eq Nat.zero_lt_one hone.symm)
    obtain ⟨m₁, m₂, rfl⟩ := List.append_of_mem hmem
    have hretry : RetryWait log (waitsOf (before ++ o :: m₁)).length :=
      ⟨before, o, m₁, w, m₂, o', after, hcons, hw, rfl⟩
    exact ⟨m₁, w, m₂, rfl, hw,
      (hhosted.switchesOut_iff hlimit hretry.lt).mpr (haccepts _ hretry)⟩

/-- The wait of a `read` of descriptor 5 with the default timeout, at the clock reading
`tick`. -/
def readWait (tick : Nat) : PollCall :=
  { plainPoll 5 1 tick with fds := [⟨5, pollIn ||| pollErr ||| pollHup⟩], pollfunc := true }

/-- A thread that makes two waits of a `read`, with `acts` between them. -/
theorem hosted_twice (natives : Stream' NativeAnswer) (ret : Int) {log : List IoObs}
    {tick tick' : Nat} (acts : List Act) (p : Sys → Sys → Bool)
    (hwaits : waitsOf log = [([⟨5, pollIn ||| pollErr ||| pollHup⟩], 1),
      ([⟨5, pollIn ||| pollErr ||| pollHup⟩], 1)])
    (h : ((Sys.init 1000 1).step (.newTask plainAttr)).bind (fun s =>
      (s.step (.poll (readWait tick))).bind fun u =>
        (exec Sys.step u acts).bind fun s' => (s'.step (.poll (readWait tick'))).map fun _ =>
          decide (s.curr = some (.worker 0) ∧ s'.curr = some (.worker 0) ∧
            (s.tasks 0).attr = plainAttr ∧ (s'.tasks 0).attr = plainAttr) && p s s') =
      some true) :
    ∃ s s', p s s' = true ∧ Hosted (trackedHook natives ret) log 0
      (fun i => if i = 0 then s else s')
      (fun i => if i = 0 then readWait tick else readWait tick') := by
  obtain ⟨s, hs, h⟩ := Option.bind_eq_some_iff.mp h
  obtain ⟨u, hu, h⟩ := Option.bind_eq_some_iff.mp h
  obtain ⟨s', hs', h⟩ := Option.bind_eq_some_iff.mp h
  obtain ⟨v, hv, h⟩ := Option.map_eq_some_iff.mp h
  rw [Bool.and_eq_true, decide_eq_true_eq] at h
  obtain ⟨⟨hcurr, hcurr', hattr, hattr'⟩, hp⟩ := h
  have hcases : ∀ i < (waitsOf log).length, i = 0 ∨ i = 1 := by
    rw [hwaits]
    intro i hi
    simp only [List.length_cons, List.length_nil] at hi
    omega
  refine ⟨s, s', hp, ⟨1000, 1, Reaches.snoc (Reaches.refl _) trivial hs⟩, ?_, ?_, ?_, ?_, ?_⟩
  · intro i hi
    rcases hcases i hi with rfl | rfl
    · exact hcurr
    · exact hcurr'
  · intro i hi
    rcases hcases i hi with rfl | rfl
    · exact hattr
    · exact hattr'
  · intro i hi
    rcases hcases i hi with rfl | rfl
    · exact ⟨u, hu, fun _ => exec_reaches (fun _ _ _ => trivial) hs'⟩
    · refine ⟨v, hv, ?_⟩
      rw [hwaits]
      simp
  · intro i hi
    rcases hcases i hi with rfl | rfl <;> rw [hwaits] <;> rfl
  · intro i hi
    rcases hcases i hi with rfl | rfl <;> simp [readWait, plainPoll]

instance (s : Sys) (t : TaskId) (call : PollCall) : Decidable (s.accepts t call) :=
  inferInstanceAs (Decidable (_ ∧ _ ∧ _))

/-- A `read` that is answered `EAGAIN` and then 7 bytes. The event loop runs during the first
wait, and both waits are accepted. -/
theorem retry_switches_twice :
    ∃ log thread calls, log = ((trackedHook (Stream'.cons ⟨-1, Errno.eagain⟩
        (Stream'.const ⟨7, 0⟩)) 1).call 2 (.read 5 10)).log ∧
      log.length = 4 ∧ Switching log thread calls := by
  obtain ⟨s, s', hp, hhosted⟩ : ∃ s s', _ ∧ Hosted _ ((trackedHook (Stream'.cons
      ⟨-1, Errno.eagain⟩ (Stream'.const ⟨7, 0⟩)) 1).call 2 (.read 5 10)).log 0
        (fun i => if i = 0 then s else s')
        (fun i => if i = 0 then readWait 1000 else readWait 1001) :=
    hosted_twice (Stream'.cons ⟨-1, Errno.eagain⟩ (Stream'.const ⟨7, 0⟩)) 1
      [.eventloop 1000, .iterate [] 1001, .drain]
      (fun s s' => decide (s.accepts 0 (readWait 1000)) && decide (s'.accepts 0 (readWait 1001)))
      (by decide) (by decide +kernel)
  rw [Bool.and_eq_true, decide_eq_true_eq, decide_eq_true_eq] at hp
  refine ⟨_, _, _, rfl, by decide, (retry_switches_iff rfl rfl hhosted).mpr ?_⟩
  intro i hi
  have hlt : i < 2 := hi.lt
  obtain rfl | rfl : i = 0 ∨ i = 1 := by omega
  · exact hp.1
  · exact hp.2

/-- The log of a `read` whose waits have failed and that was answered `EAGAIN` twice. -/
def blockedRead : List IoObs :=
  [.waited [⟨5, pollIn ||| pollErr ||| pollHup⟩] 1 false (-1),
    .native (.transfer .read 5 0 10) (-1),
    .waited [⟨5, pollIn ||| pollErr ||| pollHup⟩] 1 false (-1),
    .native (.transfer .read 5 0 10) (-1)]

/-- The clock is 61 s ahead of the last iteration of the event loop. A `read` that is
answered `EAGAIN` waits, asks again, and was not switched out in between: `poll_inner` has
failed with `EINVAL` both times. -/
theorem retry_spins :
    ∃ thread calls, Hosted (trackedHook (Stream'.const ⟨-1, Errno.eagain⟩) (-1)) blockedRead 0
        thread calls ∧
      ((trackedHook (Stream'.const ⟨-1, Errno.eagain⟩) (-1)).call 2 (.read 5 10)).log =
        blockedRead ∧
      (thread 1).trace.getLast? = some (.polled (.worker 0) (-1) (some Errno.einval) []) ∧
      ¬ Switching blockedRead thread calls := by
  obtain ⟨s, s', hp, hhosted⟩ : ∃ s s', _ ∧ Hosted _ blockedRead 0
      (fun i => if i = 0 then s else s')
      (fun i => if i = 0 then readWait 62000 else readWait 62000) :=
    hosted_twice (Stream'.const ⟨-1, Errno.eagain⟩) (-1) []
      (fun _ s' => decide (¬ s'.accepts 0 (readWait 62000)) && decide (s'.trace.getLast? =
        some (.polled (.worker 0) (-1) (some Errno.einval) []))) (by decide) (by decide +kernel)
  rw [Bool.and_eq_true, decide_eq_true_eq, decide_eq_true_eq] at hp
  refine ⟨_, _, hhosted, by decide, hp.2, ?_⟩
  intro hswitching
  obtain ⟨m₁, w, m₂, hmid, -, hout⟩ := hswitching
    (blockedRead.take 1) _ [.waited [⟨5, pollIn ||| pollErr ||| pollHup⟩] 1 false (-1)] _ []
    ⟨rfl, rfl, rfl, by simp [IoObs.isIo]⟩
  obtain rfl : m₁ = [] := by
    cases m₁ with
    | nil => rfl
    | cons => simp at hmid
  exact hp.1 ((hhosted.switchesOut_iff rfl (by decide)).mp hout)

end Libcr
