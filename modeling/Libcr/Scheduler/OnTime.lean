import Libcr.Scheduler.Deadline
import Libcr.Scheduler.WakeUp

/-!
# No call is woken before its time

A suspended `poll_inner` call enters the active list with its first event, which is
counted, or when `takeAllTimeout` finds its time reached. A call that is woken without
having counted an event has therefore slept until the clock has shown its `expire`.
-/

namespace Libcr

/-- The coroutine whose `poll_inner` call an entry of the trace shows the end of. -/
def Obs.polledBy : Obs → Option CoId
  | .polled c .. => some c
  | _ => none

/-- Every call that was detached by an event has counted it. -/
def Sys.Counted (s : Sys) : Prop :=
  ∀ f fr, s.frames f = some fr → fr.allEventDetatch = true → 0 < fr.raiseCnt

/-- A call on the active list that has counted no event, or can have none, has reached its
time. -/
def Sys.OnTime (s : Sys) : Prop :=
  ∀ f fr, s.frames f = some fr → s.lists.parent f = some .active →
    fr.raiseCnt = 0 ∨ fr.fds = [] → fr.expire ≤ lastClock s.trace

/-- The task `t` sleeps in the `poll_inner` call `f` on these descriptors, which expires at
this time. -/
structure Sys.Asleep (s : Sys) (t : TaskId) (ph : Phase) (f : FrameId) (fds : List PollFd)
    (expire : Nat) : Prop where
  pc : s.pc (.worker t) = .polling ph f
  frame : ∃ fr, s.frames f = some fr ∧ fr.fds = fds ∧ fr.expire = expire

section Counting

variable {s : Sys}

theorem counted_preparePollEvent (h : s.Counted) (r : Registration) (events : BitVec 32) :
    (s.preparePollEvent r events).Counted := by
  unfold Sys.preparePollEvent
  cases hfr : s.frames r.frame with
  | none => exact h
  | some fr =>
      intro f fr' hfr' hflag
      dsimp only at hfr'
      by_cases hf : f = r.frame
      · subst hf
        split at hfr'
        · simp only [Sys.setFrame, Sys.emit, Function.update_self, Option.some_inj] at hfr'
          rw [← hfr']
          exact Nat.succ_pos _
        · simp only [Sys.setFrame, Sys.emit, Function.update_self, Option.some_inj] at hfr'
          rw [← hfr']
          exact Nat.succ_pos _
      · split at hfr'
        · simp only [Sys.setFrame, Sys.emit, Function.update_of_ne hf] at hfr'
          exact h f fr' hfr' hflag
        · simp only [Sys.setFrame, Sys.emit, Function.update_of_ne hf] at hfr'
          exact h f fr' hfr' hflag

theorem Transition.counted {n : Nat} {s' : Sys} {a : Act} (htr : Transition n s a s')
    (h : Inv n s) (hcounted : s.Counted) : s'.Counted := by
  intro f fr hfr hflag
  cases htr.frame_origin hfr with
  | @iterated events tick =>
      have hprep : (s.prepared events).Counted :=
        Sys.prepareAll_invariant (P := Sys.Counted) (s := s.emit [.epollWait]) hcounted
          (fun _ r m hu => counted_preparePollEvent hu r m) events
      rw [h.iterate_eq] at hfr
      dsimp only at hfr
      split at hfr
      · obtain ⟨fr₀, hfr₀, rfl⟩ := Option.map_eq_some_iff.mp hfr
        exact hprep f fr₀ hfr₀ hflag
      · exact hprep f fr hfr hflag
  | untouched _ hold => exact hcounted f fr hold hflag
  | suspended _ hframe =>
      rw [hframe] at hflag
      simp [Sys.frameAt] at hflag

theorem Sys.Reached.counted {ok : Sys → Act → Prop} {tick : Nat} {size : Int}
    (h : Sys.Reached ok tick size s) : s.Counted := by
  refine h.induction (P := Sys.Counted) ?_ fun _ _ _ _ hinv _ htr hcounted =>
    htr.counted hinv hcounted
  intro f fr hfr
  rw [init_frames] at hfr
  simp at hfr

end Counting

/-- While the clock does not go back, its last reading does not either. -/
theorem lastClock_le {os os' : List Obs} (h : (clocksOf (os ++ os')).Pairwise (· ≤ ·)) :
    lastClock os ≤ lastClock (os ++ os') := by
  unfold lastClock
  rw [clocksOf_append] at h ⊢
  cases hlast : (clocksOf os').getLast? with
  | none =>
      exact Nat.le_of_eq (by rw [List.getLast?_eq_none_iff.mp hlast, List.append_nil])
  | some b =>
      rw [List.getLastD_eq_getLast?, List.getLastD_eq_getLast?, List.getLast?_append, hlast]
      cases hfirst : (clocksOf os).getLast? with
      | none => simp
      | some a =>
          exact (List.pairwise_append.mp h).2.2 a (List.mem_of_getLast? hfirst) b
            (List.mem_of_getLast? hlast)

/-- After a reading the last one is among the new ones. -/
theorem lastClock_mem {os os' : List Obs} {reading : Nat} (h : .clock reading ∈ os') :
    lastClock (os ++ os') ∈ clocksOf os' := by
  have hne : clocksOf os' ≠ [] := List.ne_nil_of_mem (mem_clocksOf h)
  rw [lastClock, clocksOf_append, List.getLastD_eq_getLast?,
    List.getLast?_append_of_ne_nil _ hne, List.getLast?_eq_some_getLast hne, Option.getD_some]
  exact List.getLast_mem hne

section Waking

variable {n : Nat} {s s' : Sys} {a : Act}

/-- What an iteration finds on the active list without an event was due. -/
theorem Inv.mem_due_of_active (h : Inv n s) (hpc : s.pc .main = .loopHead)
    {events : Sys.Events} (hset : ∀ e ∈ events, (s.epollSet e.1).isSome) {tick : Nat}
    {f : FrameId} (hparent : (s.iterate events tick).lists.parent f = some .active)
    (hnot : f ∉ targets s.epollSet events) : f ∈ s.due events tick := by
  rw [← (h.iterate_linked hpc hset tick).mem_iff, h.iterate_active, List.mem_append,
    (h.prepared hpc hset).active] at hparent
  exact hparent.resolve_left hnot

/-- The last reading of an iteration is the one that it takes the due items with. -/
theorem Inv.lastClock_iterate (h : Inv n s) (hpc : s.pc .main = .loopHead)
    {events : Sys.Events} (hset : ∀ e ∈ events, (s.epollSet e.1).isSome) (tick : Nat) :
    lastClock (s.iterate events tick).trace = tick := by
  obtain ⟨seg, htrace, hobs, -⟩ := h.iterate_trace hpc hset tick
  have hnone : ∀ l : List Obs, (∀ o ∈ l, ∀ reading, o ≠ .clock reading) →
      clocksOf l = [] := by
    intro l hl
    rw [clocksOf, List.filterMap_eq_nil_iff]
    intro o ho
    cases o with
    | clock reading => exact absurd rfl (hl _ ho reading)
    | _ => rfl
  have hseg : clocksOf seg = [] := by
    apply hnone
    intro o ho reading heq
    obtain ⟨g, -, rfl | rfl⟩ := hobs o ho <;> simp at heq
  have hdue : clocksOf ((s.due events tick).map .activated) = [] := by
    apply hnone
    intro o ho reading heq
    obtain ⟨g, -, rfl⟩ := List.mem_map.mp ho
    simp at heq
  simp only [lastClock, htrace, clocksOf_append, hseg, hdue]
  simp [clocksOf]

/-- A paced step keeps calls from being activated before their time. -/
theorem Transition.onTime (htr : Transition n s a s') (h : Inv n s) (harmed : s.Armed)
    (hok : s.Paced a) (hcounted : s.Counted)
    (hclock : (clocksOf s'.trace).Pairwise (· ≤ ·)) (hontime : s.OnTime) : s'.OnTime := by
  have hcounted' := htr.counted h hcounted
  obtain ⟨os, hos, -⟩ := htr.records h
  have hlast : lastClock s.trace ≤ lastClock s'.trace := by
    rw [hos] at hclock ⊢
    exact lastClock_le hclock
  intro f fr hfr hparent hquiet
  cases htr.frame_origin hfr with
  | untouched _ hold hsame =>
      exact Nat.le_trans (hontime f fr hold (hsame ▸ hparent) hquiet) hlast
  | suspended _ _ hwaits => exact absurd hparent hwaits
  | @iterated events tick hpc hset =>
      -- Without an event the call was found by `takeAllTimeout`.
      obtain ⟨fr₀, hfr₀, -, hfds, hexpire, hdetached⟩ := h.iterate_origin hpc hset tick hfr
      have hnot : f ∉ targets s.epollSet events := by
        intro hin
        rcases hquiet with hzero | hempty
        · have hpositive := hcounted' f fr hfr (by rw [hdetached, decide_eq_true hin])
          omega
        · obtain ⟨e, he, hr⟩ := List.mem_filterMap.mp hin
          obtain ⟨r, hset', rfl⟩ := Option.map_eq_some_iff.mp hr
          obtain ⟨-, fr₁, hfr₁, p, hp, -⟩ := h.frames.registered e.1 r hset'
          obtain rfl : fr₀ = fr₁ := Option.some_inj.mp (hfr₀.symm.trans hfr₁)
          rw [← hfds, hempty] at hp
          simp at hp
      have hdue := h.mem_due_of_active hpc hset hparent hnot
      obtain ⟨-, fr₁, hfr₁, hle⟩ := (h.mem_due_iff hpc hset harmed hok f).mp hdue
      obtain rfl : fr₀ = fr₁ := Option.some_inj.mp (hfr₀.symm.trans hfr₁)
      rw [h.lastClock_iterate hpc hset, hexpire]
      exact hle

theorem Sys.Reached.onTime {tick : Nat} {size : Int} (hpos : 0 < tick) (hlt : tick < 2 ^ 63)
    (h : Sys.Reached Sys.Paced tick size s)
    (hclock : (clocksOf s.trace).Pairwise (· ≤ ·)) : s.OnTime := by
  revert hclock
  refine h.induction (P := fun s => (clocksOf s.trace).Pairwise (· ≤ ·) → s.OnTime) ?_ ?_
  · intro _ f fr hfr
    rw [init_frames] at hfr
    simp at hfr
  · intro u a v hu hinv hok htr hP hclock
    obtain ⟨os, hos, -⟩ := htr.records hinv
    have hbefore : (clocksOf u.trace).Pairwise (· ≤ ·) := by
      rw [hos, clocksOf_append, List.pairwise_append] at hclock
      exact hclock.1
    exact htr.onTime hinv (hu.armed hpos hlt) hok hu.counted hclock (hP hbefore)

/-- A sleeping task sleeps on, or the event loop wakes it up. -/
theorem Transition.asleep (htr : Transition n s a s') (h : Inv n s) {t : TaskId} (ht : t < n)
    {ph : Phase} {f : FrameId} {fds : List PollFd} {expire : Nat}
    (hasleep : s.Asleep t ph f fds expire) :
    s'.Asleep t ph f fds expire ∨ ∃ fr, s.frames f = some fr ∧ fr.fds = fds ∧
      fr.expire = expire ∧ s.lists.parent f = some .active ∧ s' = s.woken f fr t ph := by
  obtain ⟨hsleep, fr, hfr, hfds, hexpire⟩ := hasleep
  have hframe : ∃ fr, s.frames f = some fr ∧ fr.fds = fds ∧ fr.expire = expire :=
    ⟨fr, hfr, hfds, hexpire⟩
  have hne : ∀ {c ph'}, s.pc c = .user ph' → .worker t ≠ c := by
    rintro c ph' hpc rfl
    rw [hsleep] at hpc
    simp at hpc
  have hyield : ∀ {c last p}, .worker t ≠ c → Function.update (Function.update s.pc c p) last
      (s.pc last).landed (.worker t) = .polling ph f := by
    intro c last p hc
    by_cases hlast : .worker t = last
    · rw [← hlast, Function.update_self, hsleep]
      rfl
    · rw [Function.update_of_ne hlast, Function.update_of_ne hc, hsleep]
  cases htr with
  | @spawn c ph' attr u hcurr hpc hu hfree =>
      have htu : CoId.worker t ≠ .worker u := by
        intro heq
        have hwait := (h.pool.of_free hfree).2
        rw [← heq, hsleep] at hwait
        simp at hwait
      refine Or.inl ⟨?_, hframe⟩
      rw [Sys.pc_spawned, Function.update_of_ne htu, Function.update_of_ne (hne hpc), hsleep]
  | @suspend ph' u call last hu hcurr hpc =>
      refine Or.inl ⟨?_, fr, ?_, hfds, hexpire⟩
      · rw [Sys.pc_suspended, hyield (hne hpc)]
      · have hf : f ≠ s.nextFrame := by
          rintro rfl
          rw [h.frames.fresh _ (Nat.le_refl _)] at hfr
          simp at hfr
        simpa [Sys.suspended, Function.update_of_ne hf] using hfr
  | @finish u ph' last hu hcurr hpc =>
      refine Or.inl ⟨?_, hframe⟩
      rw [Sys.pc_finished, hyield (hne hpc)]
  | @callback u hu hcurr hpc =>
      refine Or.inl ⟨?_, hframe⟩
      rw [Sys.pc_callingBack, Function.update_of_ne (hne hpc), hsleep]
  | eventloop => exact Or.inl ⟨hsleep, hframe⟩
  | drained => exact Or.inl ⟨hsleep, hframe⟩
  | @iterate events tick hcurr hpc hset =>
      obtain ⟨fr', hfr', -, hfds', hexpire', -⟩ := h.iterate_frame hpc hset tick hfr
      refine Or.inl ⟨?_, fr', hfr', hfds'.trans hfds, hexpire'.trans hexpire⟩
      rw [h.iterate_rest hpc hset]
      exact hsleep
  | @wake g rest gr u ph' hcurr hpc hactive hg hu hco hpoll =>
      obtain ⟨fr', hfr', hco'⟩ := h.frames.asleep t ht ph f hsleep
      obtain rfl : fr = fr' := Option.some_inj.mp (hfr.symm.trans hfr')
      by_cases hgf : g = f
      · subst hgf
        obtain rfl : fr = gr := Option.some_inj.mp (hfr.symm.trans hg)
        rw [hco', CoId.worker.injEq] at hco
        subst hco
        rw [hsleep, Pc.polling.injEq] at hpoll
        obtain ⟨rfl, -⟩ := hpoll
        have hparent : s.lists.parent g = some .active :=
          (h.frames.linked.mem_iff _ _).mp (by simp [hactive])
        exact Or.inr ⟨fr, hfr, hfds, hexpire, hparent, rfl⟩
      · have htu : CoId.worker t ≠ .worker u := by
          intro heq
          rw [← heq, hsleep, Pc.polling.injEq] at hpoll
          exact hgf hpoll.2.symm
        refine Or.inl ⟨?_, fr, ?_, hfds, hexpire⟩
        · rw [Sys.pc_woken, Function.update_of_ne htu, hsleep]
        · simpa [Sys.woken, Function.update_of_ne (Ne.symm hgf)] using hfr
  | _ => exact Or.inl ⟨hsleep, hframe⟩

/-- A `poll_inner` call returns in the step that makes it, or because the event loop has
woken it up. -/
theorem Transition.polled_cases (htr : Transition n s a s') (h : Inv n s) {os : List Obs}
    (htrace : s'.trace = s.trace ++ os) {c : CoId} {ret : Int} {errno : Option Errno}
    {revents : List (BitVec 16)} (hmem : .polled c ret errno revents ∈ os) :
    (∃ ph, s.curr = some c ∧ s.pc c = .user ph) ∨
      ∃ f fr t ph, c = .worker t ∧ s.frames f = some fr ∧
        s.pc (.worker t) = .polling ph f ∧ s' = s.woken f fr t ph ∧ ret = fr.raiseCnt := by
  obtain ⟨os', hos', hrecords⟩ := htr.records h
  obtain rfl : os = os' := List.append_cancel_left (htrace.symm.trans hos')
  have hrecord := hrecords _ hmem
  have hdel : ∀ f fds set, .polled c ret errno revents ∉ (delEpoll f fds set).2 := by
    intro f fds set hin
    obtain ⟨fd, r, heq, -⟩ := mem_delEpoll_obs.mp hin
    simp at heq
  have hadd : ∀ call, .polled c ret errno revents ∉ (s.register call).2.1 := by
    intro call hin
    obtain ⟨k, fd, heq, -⟩ := mem_addEpoll_obs hin
    simp at heq
  have hself : ∀ {t ph ret' errno' revents'}, s.curr = some (.worker t) →
      s.pc (.worker t) = .user ph →
      Obs.polled c ret errno revents = .polled (.worker t) ret' errno' revents' →
      ∃ ph, s.curr = some c ∧ s.pc c = .user ph := by
    intro t ph ret' errno' revents' hcurr hpc heq
    rw [(Obs.polled.inj heq).1]
    exact ⟨ph, hcurr, hpc⟩
  cases htr with
  | expired ht hcurr hpc =>
      simp only [Sys.emit, Sys.fixed, List.append_assoc, List.append_cancel_left_eq] at htrace
      simp only [← htrace, List.mem_append, List.mem_cons, reduceCtorEq, List.not_mem_nil,
        or_false, false_or] at hmem
      exact Or.inl (hself hcurr hpc hmem)
  | fallback ht hcurr hpc =>
      simp only [Sys.emit, Sys.fixed, List.append_assoc, List.append_cancel_left_eq] at htrace
      simp only [← htrace, List.mem_append, List.mem_cons, reduceCtorEq, List.not_mem_nil,
        or_false, false_or] at hmem
      exact Or.inl (hself hcurr hpc hmem)
  | reject ht hcurr hpc =>
      simp only [Sys.rejected, Sys.fixed, List.append_assoc, List.append_cancel_left_eq] at htrace
      simp only [← htrace, List.mem_append, List.mem_cons, reduceCtorEq, List.not_mem_nil,
        or_false, false_or, hadd, hdel] at hmem
      exact Or.inl (hself hcurr hpc hmem)
  | suspend =>
      simp only [Sys.suspended, Sys.fixed, List.append_assoc, List.append_cancel_left_eq]
        at htrace
      simp [← htrace, hadd] at hmem
  | drained =>
      have hnil : os = [] := List.append_cancel_left (htrace.symm.trans (List.append_nil _).symm)
      simp [hnil] at hmem
  | @wake f rest fr t ph hcurr hpc hactive hframe ht hco hpoll =>
      obtain rfl := List.append_cancel_left htrace
      simp only [List.mem_append, List.mem_cons, reduceCtorEq, List.not_mem_nil, or_false,
        false_or, hdel] at hmem
      obtain ⟨rfl, rfl, -, -⟩ := Obs.polled.inj hmem
      exact Or.inr ⟨f, fr, t, ph, rfl, hframe, hpoll, rfl, rfl⟩
  | _ => simp [Act.records] at hrecord

/-- A task that sleeps goes on to as long as nothing is recorded about it. -/
theorem Sys.Reached.still_asleep {ok : Sys → Act → Prop} {tick : Nat} {size : Int} {u v : Sys}
    (hu : Sys.Reached ok tick size u) {t : TaskId} (ht : t < size.toNat) {ph : Phase}
    {f : FrameId} {fds : List PollFd} {expire : Nat} (hasleep : u.Asleep t ph f fds expire)
    (hrun : Reaches Sys.step ok u v) :
    ∃ seg, v.trace = u.trace ++ seg ∧
      ((∀ o ∈ seg, o.polledBy ≠ some (.worker t)) → v.Asleep t ph f fds expire) := by
  refine hrun.invariant (P := fun v => ∃ seg, v.trace = u.trace ++ seg ∧
    ((∀ o ∈ seg, o.polledBy ≠ some (.worker t)) → v.Asleep t ph f fds expire))
    ⟨[], by simp, fun _ => hasleep⟩ ?_
  rintro w a w' hw ⟨seg, hseg, hP⟩ - hstep
  have hinv : Inv size.toNat w := Sys.Reached.inv (Reaches.trans hu hw)
  have htr := hinv.step_transition hstep
  obtain ⟨os, hos, -⟩ := htr.records hinv
  refine ⟨seg ++ os, by rw [hos, hseg, List.append_assoc], ?_⟩
  intro hoff
  rcases htr.asleep hinv ht (hP fun o ho => hoff o (List.mem_append_left os ho)) with
    hstill | ⟨fr, -, -, -, -, rfl⟩
  · exact hstill
  · have hmem : .polled (.worker t) fr.raiseCnt none fr.revents ∈ os := by
      have heq := List.append_cancel_left hos
      simp [← heq]
    exact absurd rfl (hoff _ (List.mem_append_right seg hmem))

/-- A call that sleeps and has returned was woken on the active list. -/
theorem Sys.Reached.awoken {ok : Sys → Act → Prop} {tick : Nat} {size : Int} {u v : Sys}
    (hu : Sys.Reached ok tick size u) {t : TaskId} (ht : t < size.toNat) {ph : Phase}
    {f : FrameId} {fds : List PollFd} {expire : Nat} (hasleep : u.Asleep t ph f fds expire)
    (hrun : Reaches Sys.step ok u v) {os : List Obs} {ret : Int} {errno : Option Errno}
    {revents : List (BitVec 16)}
    (htrace : v.trace = u.trace ++ (os ++ [.polled (.worker t) ret errno revents]))
    (hos : ∀ o ∈ os, o.polledBy ≠ some (.worker t)) :
    ∃ w fr os₁, Sys.Reached ok tick size w ∧ w.trace = u.trace ++ os₁ ∧ os₁ <+: os ∧
      w.frames f = some fr ∧ w.lists.parent f = some .active ∧ fr.fds = fds ∧
      fr.expire = expire ∧ ret = fr.raiseCnt := by
  have hsplit : v.trace = (u.trace ++ os) ++ .polled (.worker t) ret errno revents :: [] := by
    rw [htrace, List.append_assoc]
  obtain ⟨w, a, w', os₁, os₂, later, hw, -, htr, hlog, hbefore, -⟩ :=
    hu.emission_of_run hrun hsplit (by simp)
  have hreached : Sys.Reached ok tick size w := Reaches.trans hu hw
  obtain ⟨seg, hseg, hP⟩ := hu.still_asleep ht hasleep hw
  rw [hseg, List.append_assoc] at hbefore
  have heq : os = seg ++ os₁ := List.append_cancel_left hbefore
  have hsleep := hP fun o ho => hos o (by rw [heq]; exact List.mem_append_left os₁ ho)
  have hinv := hreached.inv
  rcases htr.polled_cases hinv hlog (List.mem_append_right os₁ List.mem_cons_self) with
    ⟨ph', -, hpc⟩ |
    ⟨f', fr, t', ph', htt, hfr, hpc, hwoken, hret⟩
  · rw [hsleep.pc] at hpc
    simp at hpc
  · obtain rfl := CoId.worker.inj htt
    rw [hsleep.pc, Pc.polling.injEq] at hpc
    obtain ⟨rfl, rfl⟩ := hpc
    rcases htr.asleep hinv ht hsleep with hstill | ⟨fr', hfr', hfds, hexpire, hparent, -⟩
    · have hpc := hstill.pc
      rw [hwoken, Sys.pc_woken, Function.update_self] at hpc
      simp at hpc
    · obtain rfl : fr = fr' := Option.some_inj.mp (hfr.symm.trans hfr')
      exact ⟨w, fr, seg, hreached, hseg, ⟨os₁, heq.symm⟩, hfr, hparent, hfds, hexpire, hret⟩

end Waking

section Start

variable {n : Nat} {s s' : Sys} {a : Act}

theorem Wheel.start_restart (w : Wheel) (now : Nat) :
    (w.restart now).start = w.start ∨ (w.restart now).start = now := by
  unfold Wheel.restart
  split
  · exact Or.inr rfl
  · exact Or.inl rfl

theorem start_takeAllTimeout {α : Type} [DecidableEq α] (w : Wheel) (L : TimerLists α)
    (now : Nat) (result : ListId) :
    (takeAllTimeout w L now result).1.start = w.start ∨
      (takeAllTimeout w L now result).1.start = now := by
  unfold takeAllTimeout
  dsimp only
  split
  · exact w.start_restart now
  · split
    · exact w.start_restart now
    · exact Or.inr rfl

/-- A step leaves the start of the wheel alone or moves it to a reading. -/
theorem Transition.start_cases (htr : Transition n s a s') (h : Inv n s) :
    ∃ os, s'.trace = s.trace ++ os ∧
      (s'.wheel.start = s.wheel.start ∨ .clock s'.wheel.start ∈ os) := by
  obtain ⟨os, hos, -⟩ := htr.records h
  refine ⟨os, hos, ?_⟩
  cases htr with
  | @reject ph t call =>
      rcases s.wheel.start_restart call.tick with heq | heq
      · exact Or.inl heq
      · simp only [Sys.rejected, Sys.fixed, List.append_assoc, List.append_cancel_left_eq] at hos
        right
        simp [Sys.rejected, heq, ← hos]
  | @suspend ph t call last =>
      rcases s.wheel.start_restart call.tick with heq | heq
      · exact Or.inl heq
      · simp only [Sys.suspended, Sys.fixed, List.append_assoc, List.append_cancel_left_eq] at hos
        right
        simp [Sys.suspended, heq, ← hos]
  | @iterate events tick hcurr hpc hset =>
      obtain ⟨seg, htrace, -⟩ := h.iterate_trace hpc hset tick
      obtain rfl := List.append_cancel_left (htrace.symm.trans hos)
      have hstart : (s.iterate events tick).wheel.start = (takeAllTimeout
          (s.prepared events).wheel (s.prepared events).lists tick .timeout).1.start := by
        rw [h.iterate_eq]
      rcases start_takeAllTimeout (s.prepared events).wheel (s.prepared events).lists tick
        .timeout with heq | heq
      · exact Or.inl (by rw [hstart, heq, h.prepared_wheel hpc hset])
      · right
        rw [hstart, heq]
        simp
  | _ => exact Or.inl rfl

/-- The clock is read when the wheel is made. -/
theorem clock_mem_init (tick : Nat) (size : Int) : .clock tick ∈ (Sys.init tick size).trace := by
  change .clock tick ∈ ((List.range size.toNat).foldl Sys.createTask
    (Sys.initCurrThreadEnv tick)).trace
  rw [Sys.foldl_createTask rfl rfl]
  exact List.mem_append_left _ (List.mem_singleton_self _)

/-- The start of the wheel was read from the clock. -/
theorem Sys.Reached.start_read {ok : Sys → Act → Prop} {tick : Nat} {size : Int}
    (h : Sys.Reached ok tick size s) : .clock s.wheel.start ∈ s.trace := by
  refine h.induction (P := fun s => .clock s.wheel.start ∈ s.trace) ?_ ?_
  · have hwheel : (Sys.init tick size).wheel = Wheel.allocTimer kTimerSize (by decide) tick :=
      (created tick size.toNat).wheel
    rw [hwheel]
    exact clock_mem_init tick size
  · intro u a v _ hinv _ htr hP
    obtain ⟨os, hos, hstart | hstart⟩ := htr.start_cases hinv
    · rw [hstart, hos]
      exact List.mem_append_left os hP
    · rw [hos]
      exact List.mem_append_right _ hstart

/-- The wheel keeps its size. -/
theorem Sys.Reached.wheel_size {ok : Sys → Act → Prop} {tick : Nat} {size : Int}
    (h : Sys.Reached ok tick size s) : s.wheel.size = kTimerSize := by
  refine h.induction (P := fun s => s.wheel.size = kTimerSize) ?_ ?_
  · have hwheel : (Sys.init tick size).wheel = Wheel.allocTimer kTimerSize (by decide) tick :=
      (created tick size.toNat).wheel
    rw [hwheel]
    rfl
  · intro u a v _ hinv _ htr hP
    cases htr with
    | reject | suspend => exact (u.wheel.restart_size _).trans hP
    | @iterate events tick hcurr hpc hset =>
        rw [hinv.iterate_eq, ← hP, ← hinv.prepared_wheel hpc hset]
        exact takeAllTimeout_size ..
    | _ => exact hP

end Start

end Libcr
