import Libcr.Scheduler.Transition

/-!
# Every step is a transition

The code of a step, followed through the switches it makes, ends in one of the
closed forms of `Transition` whenever the scheduling invariant holds before it.
-/

namespace Libcr

namespace Sys

/-- Resuming a pooled coroutine that waits runs the loop of `task_main` once. -/
theorem coroutineResume_waiting {s : Sys} {c : CoId} (t : TaskId)
    (hpc : s.pc c = .waiting) (hstate : (s.coroutines c).state = .running)
    (htask : (s.coroutines c).task = some t) :
    s.coroutineResume c =
      ({ s with callstack := s.callstack ++ [c] }.emit
        [.index ((s.callstack.length : Int) - 1), .index s.callstack.length]).taskMain c t := by
  have hpc' : (s.coroutines c).pc = .waiting := hpc
  simp [coroutineResume, switchIn, emit, pc, hpc', hstate, htask]

/-- Resuming a coroutine that sleeps in `poll_inner` lets that call return. -/
theorem coroutineResume_polling {s : Sys} {c : CoId} {ph : Phase} {f : FrameId}
    (hpc : s.pc c = .polling ph f) (hstate : (s.coroutines c).state = .running) :
    s.coroutineResume c =
      ({ s with callstack := s.callstack ++ [c] }.emit
        [.index ((s.callstack.length : Int) - 1),
          .index s.callstack.length]).pollReturn c ph f := by
  have hpc' : (s.coroutines c).pc = .polling ph f := hpc
  simp [coroutineResume, switchIn, emit, pc, hpc', hstate]

theorem taskMain_running {s : Sys} {c : CoId} {t : TaskId}
    (h : (s.tasks t).state = .running) :
    s.taskMain c t =
      ({ s with pool := { s.pool with working := s.pool.working + 1 } }.setPc c
        (.user .fn)).emit
          [.called t (s.coroutines (s.tasks t).coroutine).fn (s.tasks t).arg] := by
  simp [taskMain, h, setPc, setCo, emit]

theorem taskMain_waiting {s : Sys} {c : CoId} {t : TaskId}
    (h : (s.tasks t).state = .waiting) :
    s.taskMain c t = (s.setPc c .waiting).yieldEnv := by
  simp [taskMain, h]

theorem yieldEnv_eq {s : Sys} {last : CoId}
    (h : s.callstack.dropLast.getLast? = some last) :
    s.yieldEnv = { s.emit [.yield s.callstack.length,
        .index ((s.callstack.length : Int) - 2), .index ((s.callstack.length : Int) - 1)] with
      callstack := s.callstack.dropLast
      coroutines := Function.update s.coroutines last
        { s.coroutines last with pc := (s.pc last).landed } } := by
  simp [yieldEnv, emit, h, setPc, setCo, pc]

end Sys

namespace Inv

variable {n : Nat} {s s' : Sys}

/-- A coroutine in user code that has a task is the pooled coroutine of that task. -/
theorem eq_worker (h : Inv n s) {c : CoId} {t : TaskId} (hcurr : s.curr = some c)
    (htask : (s.coroutines c).task = some t) : c = .worker t ∧ t < n := by
  cases c with
  | main =>
      rw [h.paired.main_task] at htask
      simp at htask
  | worker u =>
      have hu := h.discipline.mem_main u (List.mem_of_getLast? hcurr)
      rw [h.paired.task u hu, Option.some.injEq] at htask
      exact ⟨by rw [htask], htask ▸ hu⟩

/-- Below a pooled coroutine that runs there is the coroutine that resumed it. -/
theorem exists_last (h : Inv n s) {t : TaskId} (hcurr : s.curr = some (.worker t)) :
    ∃ last, s.callstack.dropLast.getLast? = some last ∧ last ≠ .worker t := by
  have hlen := h.discipline.two_le_length hcurr
  have hne : s.callstack.dropLast ≠ [] := by
    intro hnil
    have := congrArg List.length hnil
    simp only [List.length_dropLast, List.length_nil] at this
    omega
  refine ⟨s.callstack.dropLast.getLast hne, List.getLast?_eq_some_getLast hne, ?_⟩
  intro heq
  have hsplit := List.dropLast_append_getLast? _ hcurr
  have hnodup := h.discipline.nodup
  rw [← hsplit, List.nodup_append] at hnodup
  exact hnodup.2.2 _ (heq ▸ List.getLast_mem hne) _ (List.mem_singleton_self _) rfl

theorem newTask_eq (h : Inv n s) {c : CoId} {ph : Phase} {t : TaskId} {attr : TaskAttr}
    (hpc : s.pc c = .user ph) (hfree : s.pool.free = some t) :
    (s.newTask c ph attr).1 = s.spawned c ph t attr := by
  obtain ⟨ht, hwait⟩ := h.pool.of_free hfree
  have hfull : s.pool.working ≠ s.pool.size := by
    intro hfull
    rw [h.pool.free_of_full hfull] at hfree
    simp at hfree
  have hne : .worker t ≠ c := by
    rintro rfl
    rw [hwait] at hpc
    simp at hpc
  have hwait' : (s.coroutines (.worker t)).pc = .waiting := hwait
  simp only [Sys.newTask, if_neg hfull, hfree, h.paired.coroutine t ht]
  rw [Sys.coroutineResume_waiting t
    (by simp [Sys.pc, Sys.setPc, Sys.setCo, Sys.emit, Sys.setTask,
      Function.update_of_ne hne, hwait'])
    (by simp [Sys.setPc, Sys.setCo, Sys.emit, Sys.setTask, Function.update_of_ne hne,
      h.paired.state t ht])
    (by simp [Sys.setPc, Sys.setCo, Sys.emit, Sys.setTask, Function.update_of_ne hne,
      h.paired.task t ht]),
    Sys.taskMain_running (by simp [Sys.setPc, Sys.setCo, Sys.emit, Sys.setTask, Task.submit])]
  simp [Sys.setTask, Sys.setPc, Sys.setCo, Sys.emit, Sys.spawned, Task.submit,
    h.paired.coroutine t ht, Function.update_of_ne hne.symm,
    Function.update_comm hne]

theorem finishTask_eq (h : Inv n s) {t : TaskId} {last : CoId} (ht : t < n)
    (hne : last ≠ .worker t) (hlast : s.callstack.dropLast.getLast? = some last) :
    s.finishTask (.worker t) t = s.finished last t := by
  have hco := h.paired.coroutine t ht
  simp only [Sys.finishTask, hco]
  rw [Sys.taskMain_waiting (by simp [Sys.emit, Sys.setCo, Sys.setTask, Task.release]),
    Sys.yieldEnv_eq (by simpa [Sys.emit, Sys.setCo, Sys.setTask, Sys.setPc] using hlast)]
  simp [Sys.emit, Sys.setCo, Sys.setTask, Sys.setPc, Sys.finished, Task.release, Sys.pc,
    Function.update_of_ne hne]

theorem pollInner_expired {t : TaskId} {ph : Phase} {call : PollCall}
    (hfix : (s.fix t call).2.2 = true) :
    s.pollInner (.worker t) ph t call =
      (s.fixed t call).emit [.polled (.worker t) (-1) none []] := by
  unfold Sys.fix at hfix
  simp [Sys.pollInner, Sys.fixed, Sys.fix, Sys.emit, Sys.setTask, hfix]

theorem pollInner_fallback {t : TaskId} {ph : Phase} {call : PollCall}
    (hfix : (s.fix t call).2.2 = false) (hreg : (s.register call).2.2 = true) :
    s.pollInner (.worker t) ph t call =
      { s.fixed t call with nextFrame := s.nextFrame + 1 }.emit
        [.polled (.worker t) call.native none call.nativeRevents] := by
  obtain ⟨hset, hobs⟩ := addEpoll_fallback hreg
  unfold Sys.fix at hfix
  unfold Sys.register at hreg
  simp [Sys.pollInner, Sys.fixed, Sys.fix, Sys.emit, Sys.setTask, hfix, hreg, hset, hobs]

/-- `poll_inner` with every descriptor registered, up to the arming of the timer. -/
theorem pollInner_arm {t : TaskId} {ph : Phase} {call : PollCall}
    (hfix : (s.fix t call).2.2 = false) (hreg : (s.register call).2.2 = false) :
    s.pollInner (.worker t) ph t call =
      ({ s.fixed t call with
        nextFrame := s.nextFrame + 1, epollSet := (s.register call).1 }.emit
          (s.register call).2.1).pollArm (.worker t) ph s.nextFrame call
            (clampTimeout (s.fix t call).2.1) := by
  unfold Sys.fix at hfix
  unfold Sys.register at hreg
  simp [Sys.pollInner, Sys.fixed, Sys.fix, Sys.register, Sys.emit, Sys.setTask, hfix, hreg]

theorem addTimeout_of_not_accepts {t : TaskId} {call : PollCall} (h : ¬ s.accepts t call) :
    addTimeout s.wheel s.lists s.nextFrame (s.expireAt t call) call.tick =
      (-1, s.wheel.restart call.tick, s.lists) := by
  unfold addTimeout
  dsimp only
  split
  · rfl
  · next h1 =>
      split
      · rfl
      · next h2 =>
          rw [if_pos]
          by_contra h3
          refine h ⟨Nat.le_of_not_lt h1, Nat.le_of_not_lt h2, ?_⟩
          simpa [Sys.distanceAt] using h3

theorem addTimeout_of_accepts {t : TaskId} {call : PollCall} (h : s.accepts t call)
    (hfresh : s.lists.parent s.nextFrame = none) :
    addTimeout s.wheel s.lists s.nextFrame (s.expireAt t call) call.tick =
      (0, s.wheel.restart call.tick, s.lists.append
        (.slot ((s.wheel.restart call.tick).slotIndex (s.distanceAt t call))) s.nextFrame) := by
  obtain ⟨h1, h2, h3⟩ := h
  have h3' : ¬ s.distanceAt t call ≥ (s.wheel.restart call.tick).size := by
    rw [Wheel.restart_size]
    omega
  unfold Sys.distanceAt at h3' ⊢
  simp only [addTimeout, if_neg (Nat.not_lt.mpr h1), if_neg (Nat.not_lt.mpr h2), if_neg h3',
    TimerLists.addTail_of_unlinked hfresh]

theorem pollInner_reject {t : TaskId} {ph : Phase} {call : PollCall}
    (hfix : (s.fix t call).2.2 = false) (hreg : (s.register call).2.2 = false)
    (hacc : ¬ s.accepts t call) :
    s.pollInner (.worker t) ph t call = s.rejected t call := by
  have hadd := addTimeout_of_not_accepts hacc
  unfold Sys.expireAt at hadd
  rw [pollInner_arm hfix hreg]
  simp [Sys.pollArm, Sys.emit, Sys.fixed, Sys.rejected, Sys.refusal, hadd]

theorem frame_unlinked (h : Inv n s) : s.lists.parent s.nextFrame = none := by
  have hlive := h.frames.live_iff s.nextFrame
  rw [h.frames.fresh _ (Nat.le_refl _)] at hlive
  simpa using hlive

theorem pollInner_suspend (h : Inv n s) {t : TaskId} {ph : Phase} {call : PollCall}
    {last : CoId} (hne : last ≠ .worker t)
    (hlast : s.callstack.dropLast.getLast? = some last)
    (hfix : (s.fix t call).2.2 = false) (hreg : (s.register call).2.2 = false)
    (hacc : s.accepts t call) :
    s.pollInner (.worker t) ph t call = s.suspended last ph t call := by
  have hadd := addTimeout_of_accepts hacc h.frame_unlinked
  unfold Sys.expireAt at hadd
  rw [pollInner_arm hfix hreg]
  simp only [Sys.pollArm, Sys.emit, Sys.fixed, hadd]
  rw [if_neg (by simp),
    Sys.yieldEnv_eq (by simpa [Sys.setPc, Sys.setCo, Sys.setFrame] using hlast)]
  simp [Sys.emit, Sys.setPc, Sys.setCo, Sys.setFrame, Sys.suspended, Sys.fixed, Sys.frameAt,
    Sys.expireAt, Sys.pc, Function.update_of_ne hne]

theorem drain_wake (h : Inv n s) {f : FrameId} {rest : List FrameId} {fr : PollFrame}
    {t : TaskId} {ph : Phase} (hactive : s.lists.seq .active = f :: rest)
    (hframe : s.frames f = some fr) (ht : t < n) (hco : fr.coroutine = .worker t)
    (hpoll : s.pc (.worker t) = .polling ph f) : s.drain = s.woken f fr t ph := by
  have hunlinked : (s.lists.unlink .active f).parent f = none := by
    simp [LinkedSeqs.unlink]
  have hpop : TimerLists.popHead s.lists .active = s.lists.unlink .active f := by
    simp [TimerLists.popHead, hactive]
  have hremove : TimerLists.removeFromLink (s.lists.unlink .active f) f =
      s.lists.unlink .active f := by
    simp [TimerLists.removeFromLink, hunlinked]
  simp only [Sys.drain, hactive, hframe, hpop, hco]
  rw [Sys.coroutineResume_polling (by simpa [Sys.emit, Sys.pc] using hpoll)
    (by simpa [Sys.emit] using h.paired.state t ht)]
  simp [Sys.pollReturn, Sys.emit, Sys.setPc, Sys.setCo, Sys.setFrame, Sys.woken, hframe,
    hremove]

/-- Only the thread's own flow of control is ever in the event loop. -/
theorem eq_main (h : Inv n s) {c : CoId} (hcurr : s.curr = some c)
    (hpc : (s.pc c).ofWorker = false) : c = .main := by
  cases c with
  | main => rfl
  | worker t =>
      have ht := h.discipline.mem_main t (List.mem_of_getLast? hcurr)
      rw [h.discipline.worker_fits t ht] at hpc
      simp at hpc

/-- The item at the head of the active list belongs to a coroutine that sleeps. -/
theorem active_head (h : Inv n s) {f : FrameId} {rest : List FrameId}
    (hactive : s.lists.seq .active = f :: rest) :
    ∃ fr t ph, s.frames f = some fr ∧ t < n ∧ fr.coroutine = .worker t ∧
      s.pc (.worker t) = .polling ph f := by
  have hmem : f ∈ s.lists.seq .active := by simp [hactive]
  have hlive := h.frames.live_iff f
  rw [(h.frames.linked.mem_iff _ _).mp hmem] at hlive
  obtain ⟨fr, hframe⟩ := Option.isSome_iff_exists.mp hlive.symm
  obtain ⟨t, ht, hco, ph, hpoll⟩ := h.frames.owner f fr hframe
  exact ⟨fr, t, ph, hframe, ht, hco, hpoll⟩

theorem poll_transition (h : Inv n s) {t : TaskId} {ph : Phase} {call : PollCall}
    (ht : t < n) (hcurr : s.curr = some (.worker t)) (hpc : s.pc (.worker t) = .user ph) :
    Transition n s (.poll call) (s.pollInner (.worker t) ph t call) := by
  cases hfix : (s.fix t call).2.2 with
  | true =>
      rw [pollInner_expired hfix]
      exact .expired ht hcurr hpc hfix
  | false =>
      cases hreg : (s.register call).2.2 with
      | true =>
          rw [pollInner_fallback hfix hreg]
          exact .fallback ht hcurr hpc hfix hreg
      | false =>
          by_cases hacc : s.accepts t call
          · obtain ⟨last, hlast, hne⟩ := h.exists_last hcurr
            rw [h.pollInner_suspend hne hlast hfix hreg hacc]
            exact .suspend ht hcurr hpc hlast hfix hreg hacc
          · rw [pollInner_reject hfix hreg hacc]
            exact .reject ht hcurr hpc hfix hreg hacc

theorem drain_transition (h : Inv n s) (hcurr : s.curr = some .main)
    (hpc : s.pc .main = .draining) : Transition n s .drain s.drain := by
  cases hactive : s.lists.seq .active with
  | nil =>
      have heq : s.drain = s.setPc .main .loopHead := by simp [Sys.drain, hactive]
      rw [heq]
      exact .drained hcurr hpc hactive
  | cons f rest =>
      obtain ⟨fr, t, ph, hframe, ht, hco, hpoll⟩ := h.active_head hactive
      rw [h.drain_wake hactive hframe ht hco hpoll]
      exact .wake hcurr hpc hactive hframe ht hco hpoll

theorem newTask_transition (h : Inv n s) {c : CoId} {ph : Phase} {attr : TaskAttr}
    (hcurr : s.curr = some c) (hpc : s.pc c = .user ph) :
    Transition n s (.newTask attr) (s.newTask c ph attr).1 := by
  cases hfree : s.pool.free with
  | none =>
      have heq : (s.newTask c ph attr).1 = s := by
        unfold Sys.newTask
        split
        · rfl
        · rw [hfree]
      rw [heq]
      exact .full hcurr hpc hfree
  | some t =>
      rw [h.newTask_eq hpc hfree]
      exact .spawn hcurr hpc (h.pool.of_free hfree).1 hfree

theorem ret_transition (h : Inv n s) {t : TaskId} (ht : t < n)
    (hcurr : s.curr = some (.worker t)) (hpc : s.pc (.worker t) = .user .fn) :
    Transition n s .ret (s.finishFn (.worker t) t) := by
  by_cases hcb : (s.tasks t).timeout = true ∧ (s.tasks t).attr.timeout ≠ .null
  · have heq : s.finishFn (.worker t) t = s.callingBack t := by
      simp [Sys.finishFn, hcb, Sys.callingBack, Sys.setPc, Sys.setCo, Sys.emit,
        h.paired.coroutine t ht, h.paired.arg t ht]
    rw [heq]
    exact .callback ht hcurr hpc hcb.1 hcb.2
  · obtain ⟨last, hlast, hne⟩ := h.exists_last hcurr
    rw [Sys.finishFn, if_neg hcb, h.finishTask_eq ht hne hlast]
    exact .finish ht hcurr hpc hlast (Or.inl ⟨rfl, hcb⟩)

/-- Every step is one of the transitions. -/
theorem step_transition (h : Inv n s) {a : Act} (hs : s.step a = some s') :
    Transition n s a s' := by
  unfold Sys.step at hs
  cases hcurr : s.curr with
  | none => simp [hcurr] at hs
  | some c =>
      simp only [hcurr] at hs
      split at hs
      · next attr ph _ _ hpc =>
          cases hs
          exact h.newTask_transition hcurr hpc
      · next call ph t _ hpc htask =>
          obtain ⟨rfl, ht⟩ := h.eq_worker hcurr htask
          split at hs
          · cases hs
            exact h.poll_transition ht hcurr hpc
          · simp at hs
      · next t _ hpc htask =>
          obtain ⟨rfl, ht⟩ := h.eq_worker hcurr htask
          cases hs
          exact h.ret_transition ht hcurr hpc
      · next t _ hpc htask =>
          obtain ⟨rfl, ht⟩ := h.eq_worker hcurr htask
          obtain ⟨last, hlast, hne⟩ := h.exists_last hcurr
          cases hs
          rw [h.finishTask_eq ht hne hlast]
          exact .finish ht hcurr hpc hlast (Or.inr rfl)
      · next fd ph _ _ hpc =>
          cases hs
          exact .close hcurr hpc
      · next ph _ _ hpc =>
          cases hs
          exact .self hcurr hpc
      · next tick _ _ hpc =>
          obtain rfl := h.eq_main hcurr (by rw [hpc]; rfl)
          cases hs
          exact .eventloop hcurr hpc
      · next events tick _ _ hpc =>
          obtain rfl := h.eq_main hcurr (by rw [hpc]; rfl)
          split at hs
          · next hset =>
              cases hs
              exact .iterate hcurr hpc hset
          · simp at hs
      · next _ _ hpc =>
          obtain rfl := h.eq_main hcurr (by rw [hpc]; rfl)
          cases hs
          exact h.drain_transition hcurr hpc
      · simp at hs

end Inv

end Libcr
