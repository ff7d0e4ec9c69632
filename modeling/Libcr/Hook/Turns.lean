import Libcr.Hook.Expiry

/-!
# The turns of a retry loop

`wait_io_ready` answers `-1` only when `poll_inner` has answered 0 to a task that is
marked as timed out. A task with a deadline is not answered 0 once it is marked, and
one without is never marked, so in a thread every wait of a retry loop ends with the
next native call. What a call has met is then read off its log and the stream of
native answers.
-/

namespace Libcr

/-- A task without a deadline is not marked as timed out. -/
def Task.Unmarked (task : Task) : Prop :=
  task.attr.maxTimeoutMs = -1 → task.timeout = false

/-- `fix_coroutine_timeout` does not mark a task without a deadline. -/
theorem Task.Unmarked.fix {task : Task} (h : task.Unmarked) (now : Nat) (timeout : Int) :
    (fixCoroutineTimeout task now timeout).1.Unmarked := by
  obtain ⟨hattr, -⟩ := fixCoroutineTimeout_flag task now timeout
  intro hlimit
  rw [hattr] at hlimit
  simpa [fixCoroutineTimeout, hlimit] using h hlimit

/-- A task that is marked after `fix_coroutine_timeout` was found expired by it. -/
theorem Task.Unmarked.expired {task : Task} (h : task.Unmarked) {now : Nat} {timeout : Int}
    (hmarked : (fixCoroutineTimeout task now timeout).1.timeout = true) :
    (fixCoroutineTimeout task now timeout).2.2 = true := by
  rcases (fixCoroutineTimeout_flag task now timeout).2.mp hmarked with hold | hexpired
  · have hlimit : task.attr.maxTimeoutMs ≠ -1 := by
      intro hlimit
      rw [h hlimit] at hold
      simp at hold
    simp [fixCoroutineTimeout, hlimit, hold]
  · exact hexpired

/-- A step of the thread keeps it so. -/
theorem Transition.unmarked {n : Nat} {s s' : Sys} {a : Act} (htr : Transition n s a s')
    (h : Inv n s) {t : TaskId} (ht : (s.tasks t).Unmarked) : (s'.tasks t).Unmarked := by
  have hfixed : ∀ u call, ((s.fixed u call).tasks t).Unmarked := by
    intro u call
    by_cases htu : t = u
    · subst htu
      simpa [Sys.fixed, Sys.fix] using ht.fix s.now call.timeout
    · simpa [Sys.fixed, Function.update_of_ne htu] using ht
  cases htr with
  | expired | fallback | reject | suspend => exact hfixed _ _
  | @spawn c ph attr u =>
      by_cases htu : t = u
      · simp [Sys.spawned, htu, Task.submit, Task.Unmarked]
      · simpa [Sys.spawned, Function.update_of_ne htu] using ht
  | @finish u ph last =>
      by_cases htu : t = u
      · subst htu
        simpa [Sys.finished, Task.release, Task.Unmarked] using ht
      · simpa [Sys.finished, Function.update_of_ne htu] using ht
  | iterate hcurr hpc hset =>
      rw [h.iterate_rest hpc hset]
      exact ht
  | _ => exact ht

/-- In a thread no task without a deadline is ever marked as timed out. -/
theorem Sys.Reached.unmarked {ok : Sys → Act → Prop} {tick : Nat} {size : Int} {s : Sys}
    (h : Sys.Reached ok tick size s) (t : TaskId) : (s.tasks t).Unmarked :=
  h.induction (P := fun s => (s.tasks t).Unmarked)
    (fun _ => (created tick size.toNat).unmarked t)
    fun _ _ _ _ hinv _ htr ht => htr.unmarked hinv ht

namespace HookSys

variable {st : HookSys}

/-- The task of the caller before the `i`-th wait from now, if all have this timeout. -/
def taskAt (st : HookSys) (timeout : Int) : Nat → Task
  | 0 => st.task
  | i + 1 => (fixCoroutineTimeout (st.taskAt timeout i) (st.waits.get i).now timeout).1

/-- The `i`-th wait from now finds the deadline of the task expired. -/
def expiredAt (st : HookSys) (timeout : Int) (i : Nat) : Bool :=
  (fixCoroutineTimeout (st.taskAt timeout i) (st.waits.get i).now timeout).2.2

/-- The `i`-th wait from now, as the log shows it. -/
def waitAt (st : HookSys) (fds : List PollFd) (timeout : Int) (i : Nat) : IoObs :=
  .waited fds timeout (st.expiredAt timeout i)
    (if st.expiredAt timeout i then -1 else (st.waits.get i).ret)

theorem unmarked_taskAt (h : st.task.Unmarked) (timeout : Int) (i : Nat) :
    (st.taskAt timeout i).Unmarked := by
  induction i with
  | zero => exact h
  | succ i ih => exact ih.fix _ _

theorem taskAt_attr (st : HookSys) (timeout : Int) (i : Nat) :
    (st.taskAt timeout i).attr = st.task.attr := by
  induction i with
  | zero => rfl
  | succ i ih => exact (fixCoroutineTimeout_flag ..).1.trans ih

/-- A task without a deadline is never found expired. -/
theorem expiredAt_of_unlimited (h : st.task.attr.maxTimeoutMs = -1) (timeout : Int)
    (i : Nat) : st.expiredAt timeout i = false := by
  unfold expiredAt fixCoroutineTimeout
  rw [if_pos (by rw [taskAt_attr, h])]

/-- The state `u` is what `st` has become after `i` waits with this timeout. -/
structure Waited (st : HookSys) (timeout : Int) (i : Nat) (u : HookSys) : Prop where
  task : u.task = st.taskAt timeout i
  waits : u.waits = st.waits.drop i

theorem waited_zero (st : HookSys) (timeout : Int) : st.Waited timeout 0 st := ⟨rfl, rfl⟩

/-- `poll_inner` is one more wait. -/
theorem Waited.pollInner {timeout : Int} {i : Nat} {u : HookSys} (h : st.Waited timeout i u)
    (fds : List PollFd) :
    st.Waited timeout (i + 1) (u.pollInner fds timeout).2 ∧
      (u.pollInner fds timeout).2.natives = u.natives ∧
      (u.pollInner fds timeout).2.log = u.log ++ [st.waitAt fds timeout i] := by
  obtain ⟨htask, hwaits⟩ := h
  have hhead : u.waits.head = st.waits.get i := by rw [hwaits, Stream'.head_drop]
  have htail : u.waits.tail = st.waits.drop (i + 1) := by rw [hwaits, Stream'.tail_drop']
  unfold HookSys.pollInner waitAt expiredAt
  rw [htask, hhead, htail]
  dsimp only
  split
  · next hexpired => exact ⟨⟨rfl, rfl⟩, rfl, by simp [hexpired]⟩
  · next hexpired => exact ⟨⟨rfl, rfl⟩, rfl, by simp [hexpired]⟩

/-- In a thread `wait_io_ready` says that the descriptor is ready after every wait. -/
theorem waitIoReady_eq (h : st.task.Unmarked) (fd : Fd) (events : BitVec 16) (timeout : Int) :
    st.waitIoReady fd events timeout = (1, (st.pollInner [⟨fd, events⟩] timeout).2) := by
  unfold waitIoReady
  dsimp only
  rw [if_neg]
  rintro ⟨hzero, hmarked⟩
  obtain ⟨htask, -, hret⟩ := st.pollInner_spec [⟨fd, events⟩] timeout
  rw [htask] at hmarked
  rw [hret (h.expired hmarked)] at hzero
  simp at hzero

/-- `wait_io_ready` is one more wait, after which the loop goes on. -/
theorem Waited.waitIoReady {timeout : Int} {i : Nat} {u : HookSys} (h : st.Waited timeout i u)
    (hmark : st.task.Unmarked) (fd : Fd) (events : BitVec 16) :
    ∃ u', u.waitIoReady fd events timeout = (1, u') ∧ st.Waited timeout (i + 1) u' ∧
      u'.natives = u.natives ∧ u'.log = u.log ++ [st.waitAt [⟨fd, events⟩] timeout i] := by
  have hmarki : u.task.Unmarked := by
    rw [h.task]
    exact unmarked_taskAt hmark timeout i
  exact ⟨_, waitIoReady_eq hmarki fd events timeout, h.pollInner _⟩

theorem Waited.native {timeout : Int} {i : Nat} {u : HookSys} (h : st.Waited timeout i u)
    (call : NativeCall) : st.Waited timeout i (u.native call).2 :=
  ⟨h.task, h.waits⟩

/-- A native call after `k` others gets the `k`-th answer. -/
theorem native_of_drop {k : Nat} {u : HookSys} (h : u.natives = st.natives.drop k)
    (call : NativeCall) :
    (u.native call).1 = (st.natives.get k).ret ∧
      ((st.natives.get k).ret < 0 → (u.native call).2.errno = (st.natives.get k).errno) ∧
      (u.native call).2.natives = st.natives.drop (k + 1) := by
  have hhead : u.natives.head = st.natives.get k := by rw [h, Stream'.head_drop]
  have htail : u.natives.tail = st.natives.drop (k + 1) := by rw [h, Stream'.tail_drop']
  refine ⟨congrArg NativeAnswer.ret hhead, ?_, htail⟩
  intro hneg
  rw [← hhead] at hneg ⊢
  exact if_pos hneg

end HookSys

/-- The native function could not go on without blocking: it has failed with `EAGAIN`. -/
def NativeAnswer.Blocked (a : NativeAnswer) : Prop := a.ret < 0 ∧ a.errno = Errno.eagain

/-- The native function has failed for another reason. -/
def NativeAnswer.Failed (a : NativeAnswer) : Prop := a.ret < 0 ∧ a.errno ≠ Errno.eagain

instance (a : NativeAnswer) : Decidable a.Blocked := inferInstanceAs (Decidable (_ ∧ _))

instance (a : NativeAnswer) : Decidable a.Failed := inferInstanceAs (Decidable (_ ∧ _))

/-- The native calls of a log with their answers, where `natives` are the answers from the
beginning of the log on. -/
def answered : Stream' NativeAnswer → List IoObs → List (NativeCall × NativeAnswer)
  | _, [] => []
  | natives, .native call _ :: rest => (call, natives.head) :: answered natives.tail rest
  | natives, .waited .. :: rest => answered natives rest

/-- The last native call of a log that moves bytes, with its answer. -/
def lastTransfer (natives : Stream' NativeAnswer) (log : List IoObs) :
    Option (NativeCall × NativeAnswer) :=
  ((answered natives log).filter fun c => (IoObs.native c.1 c.2.ret).isTransfer).getLast?

/-- The calls of a log that was extended. -/
theorem answered_append (natives : Stream' NativeAnswer) (log log' : List IoObs) :
    answered natives (log ++ log') = answered natives log ++
      answered (natives.drop (answered natives log).length) log' := by
  induction log generalizing natives with
  | nil => rfl
  | cons o rest ih =>
      cases o with
      | waited => exact ih natives
      | native call ret =>
          rw [List.cons_append, answered, answered, ih]
          rfl

/-- A log that ends with a transfer. -/
theorem lastTransfer_concat {natives : Stream' NativeAnswer} {log : List IoObs}
    {f : Transfer} {fd : Fd} {offset length ret : Int} :
    lastTransfer natives (log ++ [.native (.transfer f fd offset length) ret]) =
      some (.transfer f fd offset length, natives.get (answered natives log).length) := by
  rw [lastTransfer, answered_append, List.filter_append]
  simp [answered, IoObs.isTransfer]

/-- A task without a deadline and the tracked descriptor 5, where every wait ends with the
answer `ret`. -/
def trackedHook (natives : Stream' NativeAnswer) (ret : Int) : HookSys where
  task := (Sys.freshTask 0 none).submit plainAttr 0
  table := fun fd => if fd = 5 then some ⟨0, ⟨0, 1000⟩, ⟨0, 1000⟩⟩ else none
  errno := 0
  natives := natives
  waits := Stream'.const ⟨0, ret, 0, fun fd =>
    if fd = 5 then some ⟨0, ⟨0, 1000⟩, ⟨0, 1000⟩⟩ else none⟩
  log := []

end Libcr
