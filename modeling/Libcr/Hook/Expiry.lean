import Mathlib.Data.List.Chain
import Libcr.Hook.Calls
import Libcr.Scheduler.Trace

/-!
# A deadline that expires during a hooked call

`poll_inner` answers `-1` when it finds the deadline of the task expired. `accept`
takes any answer up to 0 together with the flag of the task as the end of the call.
`wait_io_ready` asks for the answer 0, takes the `-1` for readiness, and lets `read`,
`recv`, `write` and `send` go on to the next native call.
-/

namespace Libcr

/-- A wait that has found the deadline expired. -/
def IoObs.expired : IoObs → Bool
  | .waited _ _ expired _ => expired
  | .native .. => false

/-- A native call that moves bytes. -/
def IoObs.isTransfer : IoObs → Bool
  | .native (.transfer ..) _ => true
  | _ => false

/-- The number of bytes the native calls of a log have moved. -/
def transferred (log : List IoObs) : Int :=
  (log.map fun
    | .native (.transfer ..) ret => max ret 0
    | _ => 0).sum

/-- The call has ended because a wait has found the deadline expired, as it should: after
the wait there is only the close of the descriptor, `errno` is `EBADF`, and the result is
the number of bytes moved before, or `-1` if there are none. -/
def Enforced (fd : Fd) (o : Outcome) : Prop :=
  ∃ before fds timeout closed ret st, o = .inr (ret, st) ∧
    st.log = before ++ [.waited fds timeout true (-1), .native (.close fd) closed] ∧
    (∀ o ∈ before, o.expired = false) ∧ st.getByFd fd = none ∧ st.errno = Errno.ebadf ∧
    ret = if 0 < transferred before then transferred before else -1

namespace HookSys

variable {st : HookSys} {fd : Fd}

@[simp] theorem native_log (call : NativeCall) :
    (st.native call).2.log = st.log ++ [.native call (st.native call).1] := rfl

theorem close_log (st : HookSys) (fd : Fd) :
    (st.close fd).2.log = st.log ++ [.native (.close fd) (st.close fd).1] := by
  unfold close
  split
  · rfl
  · dsimp only
    split
    · unfold freeByFd
      split <;> rfl
    · rfl

/-- `poll_inner` leaves the task as `fix_coroutine_timeout` does, and answers `-1` when that
has found the deadline expired. -/
theorem pollInner_spec (st : HookSys) (fds : List PollFd) (timeout : Int) :
    (st.pollInner fds timeout).2.task =
        (fixCoroutineTimeout st.task st.waits.head.now timeout).1 ∧
      (st.pollInner fds timeout).2.log = st.log ++ [.waited fds timeout
        (fixCoroutineTimeout st.task st.waits.head.now timeout).2.2
        (st.pollInner fds timeout).1] ∧
      ((fixCoroutineTimeout st.task st.waits.head.now timeout).2.2 = true →
        (st.pollInner fds timeout).1 = -1) := by
  unfold pollInner
  dsimp only
  split
  · next hexpired => exact ⟨rfl, by rw [hexpired], fun _ => rfl⟩
  · next hexpired =>
      rw [Bool.not_eq_true] at hexpired
      exact ⟨rfl, by rw [hexpired], by simp [hexpired]⟩

/-- What the caller of `poll_inner` is left with when the deadline has expired, and when it
has not. -/
theorem pollInner_cases (st : HookSys) (fds : List PollFd) (timeout : Int) :
    (st.pollInner fds timeout).2.isEnableSysHook = st.isEnableSysHook ∧
    ((st.pollInner fds timeout).2.log = st.log ++ [IoObs.waited fds timeout true (-1)] ∧
        (st.pollInner fds timeout).1 = -1 ∧
        (st.pollInner fds timeout).2.task.timeout = true ∨
      (st.pollInner fds timeout).2.log =
        st.log ++ [IoObs.waited fds timeout false (st.pollInner fds timeout).1]) := by
  obtain ⟨htask, hlog, hret⟩ := st.pollInner_spec fds timeout
  obtain ⟨hattr, hflag⟩ := fixCoroutineTimeout_flag st.task st.waits.head.now timeout
  refine ⟨by rw [isEnableSysHook, htask, hattr]; rfl, ?_⟩
  cases hexpired : (fixCoroutineTimeout st.task st.waits.head.now timeout).2.2 with
  | true =>
      rw [hexpired, hret hexpired] at hlog
      refine Or.inl ⟨hlog, hret hexpired, ?_⟩
      rw [htask]
      exact hflag.mpr (Or.inr hexpired)
  | false =>
      rw [hexpired] at hlog
      exact Or.inr hlog

/-- `wait_io_ready` answers 1 after any wait but one that has ended with the answer 0, so
after every wait that has found the deadline expired. -/
theorem waitIoReady_cases (st : HookSys) (fd : Fd) (events : BitVec 16) (timeout : Int) :
    (st.waitIoReady fd events timeout).1 = 1 ∧
        (∃ o : IoObs, (st.waitIoReady fd events timeout).2.log = st.log ++ [o] ∧
          o.isTransfer = false) ∨
      (st.waitIoReady fd events timeout).1 = -1 ∧
        ∃ o o' : IoObs, (st.waitIoReady fd events timeout).2.log = st.log ++ [o, o'] ∧
          o.expired = false ∧ o'.expired = false := by
  obtain ⟨-, hcases⟩ := st.pollInner_cases [⟨fd, events⟩] timeout
  unfold waitIoReady
  dsimp only
  split
  · next hzero =>
      refine Or.inr ⟨rfl, ?_⟩
      rcases hcases with ⟨-, hneg, -⟩ | hlog
      · rw [hneg] at hzero
        simp at hzero
      · have hclose := (st.pollInner [⟨fd, events⟩] timeout).2.close_log fd
        rw [hlog, List.append_assoc] at hclose
        exact ⟨_, _, hclose, rfl, rfl⟩
  · refine Or.inl ⟨rfl, ?_⟩
    rcases hcases with ⟨hlog, -⟩ | hlog
    · exact ⟨_, hlog, rfl⟩
    · exact ⟨_, hlog, rfl⟩

end HookSys

/-- Every wait that has found the deadline expired is followed by a transfer. -/
structure Retries (log : List IoObs) : Prop where
  next : log.IsChain fun o o' => o.expired = true → o'.isTransfer = true
  last : ∀ o ∈ log.getLast?, o.expired = false

namespace Retries

variable {log : List IoObs}

theorem append (h : Retries log) {seg : List IoObs} (hseg : Retries seg) (hne : seg ≠ []) :
    Retries (log ++ seg) := by
  refine ⟨List.isChain_append.mpr ⟨h.next, hseg.next, ?_⟩, ?_⟩
  · intro o ho o' _ hexpired
    rw [h.last o ho] at hexpired
    simp at hexpired
  · rw [List.getLast?_append_of_ne_nil _ hne]
    exact hseg.last

end Retries

section Transfers

variable {f : Transfer} {fd : Fd} {nbyte : Nat} {timeout : Int} {p : Progress}

/-- A wait and what follows it in the same turn of a loop keep the log retrying. -/
theorem retries_ready {st : HookSys} {events : BitVec 16} (h : Retries st.log)
    (hready : (st.waitIoReady fd events timeout).1 ≤ 0) :
    Retries (st.waitIoReady fd events timeout).2.log := by
  rcases st.waitIoReady_cases fd events timeout with ⟨hone, -⟩ | ⟨-, o, o', hlog, ho, ho'⟩
  · omega
  · rw [hlog]
    refine h.append ⟨?_, ?_⟩ (by simp)
    · simp [ho]
    · simp [ho']

theorem retries_transfer {st : HookSys} {events : BitVec 16} (f : Transfer)
    (offset length : Int) (h : Retries st.log)
    (hready : ¬ (st.waitIoReady fd events timeout).1 ≤ 0) :
    Retries ((st.waitIoReady fd events timeout).2.native
      (.transfer f fd offset length)).2.log := by
  rcases st.waitIoReady_cases fd events timeout with ⟨-, o, hlog, -⟩ | ⟨hneg, -⟩
  · rw [HookSys.native_log, hlog, List.append_assoc]
    refine h.append ⟨?_, ?_⟩ (by simp)
    · simp [IoObs.isTransfer]
    · simp [IoObs.expired]
  · omega

theorem retries_receiveTurn (h : Retries p.st.log) :
    Retries (HookSys.receiveTurn f fd nbyte timeout p).log := by
  unfold HookSys.receiveTurn
  dsimp only
  split
  · next hready => exact retries_ready h hready
  · next hready =>
      have hnative := retries_transfer f p.n (nbyte - p.n) h hready
      split
      · exact hnative
      · split <;> split <;> exact hnative

theorem retries_transmitTurn (h : Retries p.st.log) :
    Retries (HookSys.transmitTurn f fd nbyte timeout p).log := by
  unfold HookSys.transmitTurn
  dsimp only
  split
  · split
    · next hready => exact retries_ready h hready
    · next hready =>
        have hnative := retries_transfer f p.n (nbyte - p.n) h hready
        split <;> exact hnative
  · exact h

end Transfers

/-- A call that ends with a log that retries does not enforce the deadline. -/
theorem not_enforced {o : Outcome} (h : Retries o.log) (fd : Fd) : ¬ Enforced fd o := by
  rintro ⟨before, fds, timeout, closed, ret, st, rfl, hlog, -⟩
  have hchain : List.IsChain _ st.log := h.next
  rw [hlog, List.isChain_append_cons_cons] at hchain
  simpa [IoObs.isTransfer] using hchain.2.1 rfl

section Calls

variable {st : HookSys} {fd : Fd}

theorem retries_nil : Retries [] := ⟨List.isChain_nil, by simp⟩

theorem Retries.native (h : Retries st.log) (call : NativeCall) :
    Retries (st.native call).2.log := by
  rw [HookSys.native_log]
  exact h.append ⟨by simp, by simp [IoObs.expired]⟩ (by simp)

/-- Whatever the answers are, `read` and `recv` go on after a wait that has found the
deadline expired. -/
theorem retries_receive (h : Retries st.log) (f : Transfer) (nbyte fuel : Nat) :
    Retries (st.receive f fd nbyte fuel).log := by
  unfold HookSys.receive
  split
  · exact h.native _
  · split
    · exact h.native _
    · exact loop_invariant (P := fun o => Retries (Outcome.log o))
        (fun _ hp => retries_receiveTurn hp) fuel h

/-- So do `write` and `send`. -/
theorem retries_transmit (h : Retries st.log) (f : Transfer) (nbyte fuel : Nat) :
    Retries (st.transmit f fd nbyte fuel).log := by
  unfold HookSys.transmit
  split
  · exact h.native _
  · split
    · exact h.native _
    · dsimp only
      split
      · exact h.native _
      · exact loop_invariant (P := fun o => Retries (Outcome.log o))
          (fun _ hp => retries_transmitTurn hp) fuel (h.native _)

theorem retries_call (h : Retries st.log) {call : IoCall} (hcall : ∀ fd, call ≠ .accept fd)
    (fuel : Nat) : Retries (st.call fuel call).log := by
  cases call with
  | read fd nbyte => exact retries_receive h .read nbyte fuel
  | recv fd nbyte => exact retries_receive h .recv nbyte fuel
  | write fd nbyte => exact retries_transmit h .write nbyte fuel
  | send fd nbyte => exact retries_transmit h .send nbyte fuel
  | accept fd => exact absurd rfl (hcall fd)

end Calls

/-- No wait has found the deadline expired, and no bytes were moved. -/
def Calm (log : List IoObs) : Prop := ∀ o ∈ log, o.expired = false ∧ o.isTransfer = false

namespace Calm

variable {log : List IoObs}

theorem append (h : Calm log) {o : IoObs} (hexpired : o.expired = false)
    (htransfer : o.isTransfer = false) : Calm (log ++ [o]) := by
  intro o' ho'
  rcases List.mem_append.mp ho' with ho' | ho'
  · exact h o' ho'
  · rw [List.mem_singleton.mp ho']
    exact ⟨hexpired, htransfer⟩

theorem transferred_eq_zero (h : Calm log) : transferred log = 0 := by
  induction log with
  | nil => rfl
  | cons o rest ih =>
      have hrest := ih fun o' ho' => h o' (List.mem_cons_of_mem o ho')
      have ho := (h o List.mem_cons_self).2
      unfold transferred at hrest ⊢
      rw [List.map_cons, List.sum_cons, hrest]
      cases o with
      | waited => rfl
      | native call ret => cases call <;> first | rfl | simp [IoObs.isTransfer] at ho

end Calm

section Accept

variable {st : HookSys} {fd : Fd}

theorem calm_native (h : Calm st.log) {call : NativeCall}
    (hcall : (IoObs.native call (st.native call).1).isTransfer = false) :
    Calm (st.native call).2.log := by
  rw [HookSys.native_log]
  exact h.append rfl hcall

@[simp] theorem HookSys.setUserFlag_log (flags : BitVec 32) :
    (st.setUserFlag fd flags).log = st.log := by
  unfold HookSys.setUserFlag
  split <;> rfl

@[simp] theorem HookSys.allocByFd_log : (st.allocByFd fd).log = st.log := by
  unfold HookSys.allocByFd
  split <;> rfl

theorem calm_fcntlGetfl (h : Calm st.log) (fd : Fd) : Calm (st.fcntlGetfl fd).2.log := by
  unfold HookSys.fcntlGetfl
  split
  · exact h
  · exact calm_native h rfl

theorem calm_fcntlSetfl (h : Calm st.log) (fd : Fd) (param : BitVec 32) :
    Calm (st.fcntlSetfl fd param).2.log := by
  have hnative : ∀ flag, Calm (st.native (.setfl fd flag)).2.log := fun _ => calm_native h rfl
  unfold HookSys.fcntlSetfl
  split
  · exact h
  · dsimp only
    generalize (if st.isEnableSysHook ∧ (st.getByFd fd).isSome then param ||| oNonblock
      else param) = flag
    split
    · rw [HookSys.setUserFlag_log]
      exact hnative flag
    · exact hnative flag

theorem calm_accepted (h : Calm st.log) (fd : Fd) : Calm (st.accepted fd).2.log := by
  have halloc : Calm (st.allocByFd fd).log := by rwa [HookSys.allocByFd_log]
  have hset := calm_fcntlSetfl (calm_fcntlGetfl halloc fd) fd
  unfold HookSys.accepted
  dsimp only
  split
  · rw [HookSys.setUserFlag_log]
    exact hset _
  · exact hset _

/-- The hooked `close` drops the entry of the descriptor. -/
theorem HookSys.getByFd_close (h : st.isEnableSysHook = true) :
    (st.close fd).2.getByFd fd = none := by
  have hnative : ∀ u : HookSys, (u.native (.close fd)).2.getByFd fd = u.getByFd fd :=
    fun _ => rfl
  unfold HookSys.close
  rw [if_neg (by simp [h])]
  dsimp only
  rw [hnative]
  split
  · unfold HookSys.freeByFd HookSys.getByFd
    split <;> simp_all
  · next hnone => exact Option.not_isSome_iff_eq_none.mp hnone

/-- Where `accept` can be: nothing has expired yet, or the deadline was enforced. -/
def Accepting (fd : Fd) : Outcome → Prop
  | .inl p => Calm p.st.log ∧ p.st.isEnableSysHook = true
  | .inr r => Calm r.2.log ∨ Enforced fd (.inr r)

theorem accepting_turn {p : Progress} (h : Accepting fd (.inl p)) :
    Accepting fd (HookSys.acceptTurn fd p) := by
  obtain ⟨hcalm, hhook⟩ := h
  unfold HookSys.acceptTurn
  dsimp only
  split
  · split
    · obtain ⟨hhook', hcases⟩ :=
        p.st.pollInner_cases [⟨fd, pollIn ||| pollErr ||| pollHup⟩] (-1)
      rw [hhook] at hhook'
      split
      · rcases hcases with ⟨hlog, -, -⟩ | hlog
        · -- The wait has found the deadline expired.
          have hclose := (p.st.pollInner [⟨fd, pollIn ||| pollErr ||| pollHup⟩] (-1)).2.close_log
            fd
          rw [hlog, List.append_assoc] at hclose
          refine Or.inr ⟨p.st.log, _, _, _, -1, _, rfl, hclose, fun o ho => (hcalm o ho).1,
            HookSys.getByFd_close hhook', rfl, ?_⟩
          rw [hcalm.transferred_eq_zero]
          rfl
        · refine Or.inl ?_
          rw [HookSys.close_log, hlog]
          exact (hcalm.append rfl rfl).append rfl rfl
      · next hgo =>
          rcases hcases with ⟨-, hneg, htimeout⟩ | hlog
          · exact absurd ⟨by omega, htimeout⟩ hgo
          · refine ⟨calm_native ?_ rfl, hhook'⟩
            rw [hlog]
            exact hcalm.append rfl rfl
    · exact Or.inl hcalm
  · exact Or.inl (calm_accepted hcalm _)

theorem accepting_accept (hhook : st.isEnableSysHook = true)
    (htracked : (st.getByFd fd).isSome) (hlog : st.log = []) (fuel : Nat) :
    Accepting fd (st.accept fd fuel) := by
  have hsome : (st.getByFd fd).isNone = false := by simpa using htracked
  unfold HookSys.accept
  rw [if_neg (by simp [hhook]), hsome]
  refine loop_invariant (fun _ hp => accepting_turn hp) fuel ⟨calm_native ?_ rfl, hhook⟩
  simp [Calm, hlog]

theorem Accepting.enforced {o : Outcome} (h : Accepting fd o)
    (hexpired : ∃ x ∈ o.log, x.expired = true) : Enforced fd o := by
  obtain ⟨x, hx, hexp⟩ := hexpired
  have hnot : ∀ {log : List IoObs}, x ∈ log → ¬ Calm log := by
    intro log hmem hcalm
    rw [(hcalm x hmem).1] at hexp
    simp at hexp
  cases o with
  | inl p => exact absurd h.1 (hnot hx)
  | inr r => exact h.resolve_left (hnot hx)

end Accept

/-- The beginning of every `poll_inner` step of a thread. -/
theorem Transition.poll_fix {n : Nat} {s s' : Sys} {call : PollCall}
    (htr : Transition n s (.poll call) s') :
    ∃ t rest, s.curr = some (.worker t) ∧ s'.tasks t = (s.fix t call).1 ∧
      s'.trace = s.trace ++ (Obs.index ((s.callstack.length : Int) - 1) ::
        Obs.fixed t s.now (s.tasks t) (s.fix t call).1 (s.fix t call).2.2 :: rest) ∧
      ((s.fix t call).2.2 = true → rest = [.polled (.worker t) (-1) none []]) := by
  cases htr with
  | @expired ph t _ ht hcurr =>
      exact ⟨t, _, hcurr, Function.update_self .., by simp [Sys.emit, Sys.fixed], fun _ => rfl⟩
  | @fallback ph t _ ht hcurr hpc hfix =>
      exact ⟨t, _, hcurr, Function.update_self ..,
        by simp only [Sys.emit, Sys.fixed, List.append_assoc]; rfl, by simp [hfix]⟩
  | @reject ph t _ ht hcurr hpc hfix =>
      exact ⟨t, _, hcurr, Function.update_self ..,
        by simp only [Sys.rejected, Sys.fixed, List.append_assoc]; rfl, by simp [hfix]⟩
  | @suspend ph t _ last ht hcurr hpc hlast hfix =>
      exact ⟨t, _, hcurr, Function.update_self ..,
        by simp only [Sys.suspended, Sys.fixed, List.append_assoc]; rfl, by simp [hfix]⟩

/-- The wait of a hooked call is the `poll_inner` of the scheduler: it leaves the task as
the step of the thread does, and finds the deadline expired when the step does, with the
same answer. -/
theorem Transition.pollInner_agrees {n : Nat} {s s' : Sys} {call : PollCall}
    (htr : Transition n s (.poll call) s') :
    ∃ t rest, s.curr = some (.worker t) ∧ ∀ st : HookSys, st.task = s.tasks t →
      st.waits.head.now = s.now → ∃ expired ret,
        (st.pollInner call.fds call.timeout).2.task = s'.tasks t ∧
        (st.pollInner call.fds call.timeout).2.log =
          st.log ++ [IoObs.waited call.fds call.timeout expired ret] ∧
        s'.trace = s.trace ++ (Obs.index ((s.callstack.length : Int) - 1) ::
          Obs.fixed t s.now (s.tasks t) (s'.tasks t) expired :: rest) ∧
        (expired = true → ret = -1 ∧ rest = [.polled (.worker t) (-1) none []]) := by
  obtain ⟨t, rest, hcurr, htask, htrace, hrest⟩ := htr.poll_fix
  refine ⟨t, rest, hcurr, ?_⟩
  intro st hst hnow
  obtain ⟨htask', hlog, hret⟩ := st.pollInner_spec call.fds call.timeout
  rw [hst, hnow] at htask' hlog hret
  refine ⟨_, _, htask'.trans htask.symm, hlog, ?_, fun hexp => ⟨hret hexp, hrest hexp⟩⟩
  rw [htask]
  exact htrace

/-- When a wait of a hooked call on a tracked descriptor finds the deadline of the task
expired, the call ends as it should if it is `accept`, and only then. -/
theorem expiry_enforced_iff {st : HookSys} {call : IoCall}
    (hhook : st.isEnableSysHook = true) (htracked : (st.getByFd call.fd).isSome)
    (hlog : st.log = [])
    (hexpired : ∃ fuel, ∃ o ∈ (st.call fuel call).log, o.expired = true) :
    (∃ fuel, Enforced call.fd (st.call fuel call)) ↔ ∃ fd, call = .accept fd := by
  constructor
  · rintro ⟨fuel, henforced⟩
    by_contra hno
    rw [not_exists] at hno
    have hretries : Retries st.log := hlog ▸ retries_nil
    exact not_enforced (retries_call hretries hno fuel) call.fd henforced
  · rintro ⟨fd, rfl⟩
    obtain ⟨fuel, hmem⟩ := hexpired
    exact ⟨fuel, (accepting_accept hhook htracked hlog fuel).enforced hmem⟩

/-- A task of 5 ms that was created at the cached time 0, at the cached time 100, with the
tracked descriptor 5 on which nothing ever happens. -/
def blockedHook : HookSys where
  task := (Sys.freshTask 0 none).submit lateAttr 0
  table := fun fd => if fd = 5 then some ⟨0, ⟨0, 1000⟩, ⟨0, 1000⟩⟩ else none
  errno := 0
  natives := Stream'.const ⟨-1, Errno.eagain⟩
  waits := Stream'.const ⟨100, 0, 0, fun fd =>
    if fd = 5 then some ⟨0, ⟨0, 1000⟩, ⟨0, 1000⟩⟩ else none⟩
  log := []

theorem expiry_enforced_accept :
    ∃ fuel, Enforced 5 (blockedHook.call fuel (.accept 5)) := by
  have hexpired : ∃ fuel, ∃ o ∈ (blockedHook.call fuel (.accept 5)).log, o.expired = true :=
    ⟨1, by decide⟩
  exact (expiry_enforced_iff rfl rfl rfl hexpired).mpr ⟨5, rfl⟩

/-- The first wait of a `read` finds the deadline expired. The call goes on to the native
function, waits again and asks again, and never ends as it should. -/
theorem expiry_ignored_read :
    (blockedHook.call 2 (.read 5 10)).log =
        [.waited [⟨5, pollIn ||| pollErr ||| pollHup⟩] 1 true (-1),
          .native (.transfer .read 5 0 10) (-1),
          .waited [⟨5, pollIn ||| pollErr ||| pollHup⟩] 1 true (-1),
          .native (.transfer .read 5 0 10) (-1)] ∧
      ¬ ∃ fuel, Enforced 5 (blockedHook.call fuel (.read 5 10)) := by
  refine ⟨by decide, ?_⟩
  rintro ⟨fuel, henforced⟩
  exact not_enforced (retries_call retries_nil (by simp) fuel) 5 henforced

end Libcr
