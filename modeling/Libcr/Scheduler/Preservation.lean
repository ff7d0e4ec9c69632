import Libcr.Scheduler.Iteration

/-!
# The scheduling invariant is kept

Every transition keeps `Inv`, one lemma for each kind of transition. The parts
of the invariant are kept by the moves they know: the call discipline by `push`,
`pop` and `retag`, the pool by `push` and `pop`, the live calls by `suspend`,
`wake` and the iteration of the event loop.
-/

namespace Libcr

namespace Pc

theorem fits_newTask {ph : Phase} {c : CoId} (h : (Pc.user ph).fits c) :
    (Pc.newTask ph).fits c := by
  cases c with
  | main => cases ph <;> simp_all [fits, ofMain]
  | worker t => simpa [fits, ofWorker] using h

theorem ne_main_of_fits {ph : Phase} {t : TaskId} (h : (Pc.user ph).fits (.worker t)) :
    ph ≠ .main := by
  simpa [fits, ofWorker] using h

end Pc

namespace FrameInv

variable {n : Nat} {pcs pcs' : CoId → Pc} {L : TimerLists FrameId}
  {frames : FrameId → Option PollFrame} {set set' : Fd → Option Registration}
  {next next' : FrameId}

/-- The live calls are not affected when no coroutine falls asleep or wakes up
and registrations at most disappear. -/
theorem congr (h : FrameInv n pcs L frames set next)
    (hpoll : ∀ t < n, ∀ ph f,
      pcs' (.worker t) = .polling ph f ↔ pcs (.worker t) = .polling ph f)
    (hmain : pcs' .main ≠ .draining → L.seq .active = [])
    (hset : ∀ fd r, set' fd = some r → set fd = some r) (hnext : next ≤ next') :
    FrameInv n pcs' L frames set' next' where
  linked := h.linked
  live_iff := h.live_iff
  lists := h.lists
  active := hmain
  detached := h.detached
  fresh := fun f hf => h.fresh f (Nat.le_trans hnext hf)
  owner := by
    intro f fr hfr
    obtain ⟨t, ht, hco, ph, hpc⟩ := h.owner f fr hfr
    exact ⟨t, ht, hco, ph, (hpoll t ht ph f).mpr hpc⟩
  asleep := fun t ht ph f hpc => h.asleep t ht ph f ((hpoll t ht ph f).mp hpc)
  registered := fun fd r hr => h.registered fd r (hset fd r hr)

/-- A call of the task `t` arms its timer and falls asleep. -/
theorem suspend (h : FrameInv n pcs L frames set next) {t : TaskId} {ph : Phase}
    {fr : PollFrame} {k : Int} (ht : t < n) (hco : fr.coroutine = .worker t)
    (hflag : fr.allEventDetatch = false)
    (hself : pcs' (.worker t) = .polling ph next)
    (hnot : ∀ ph f, pcs (.worker t) ≠ .polling ph f)
    (hpoll : ∀ u < n, u ≠ t → ∀ ph f,
      pcs' (.worker u) = .polling ph f ↔ pcs (.worker u) = .polling ph f)
    (hmain : pcs' .main ≠ .draining → L.seq .active = [])
    (hset : ∀ fd r, set' fd = some r → set fd = some r ∨
      r.frame = next ∧ -1 < fd ∧ ∃ p, fr.fds[r.item]? = some p ∧ p.fd = fd) :
    FrameInv n pcs' (L.append (.slot k) next) (Function.update frames next (some fr)) set'
      (next + 1) := by
  have hdead : frames next = none := h.fresh next (Nat.le_refl _)
  have hunlinked : L.parent next = none := by
    have hlive := h.live_iff next
    rw [hdead] at hlive
    simpa using hlive
  have hne : ∀ f, frames f ≠ none → f ≠ next := by
    rintro f hf rfl
    exact hf hdead
  refine
    { linked := h.linked.append _ hunlinked
      live_iff := ?_
      lists := ?_
      active := ?_
      detached := ?_
      fresh := ?_
      owner := ?_
      asleep := ?_
      registered := ?_ }
  · intro f
    by_cases hf : f = next
    · simp [hf, LinkedSeqs.append]
    · simp [LinkedSeqs.append, Function.update_of_ne hf, h.live_iff f]
  · intro f l hl
    by_cases hf : f = next
    · subst hf
      simp only [LinkedSeqs.append, Function.update_self, Option.some.injEq] at hl
      exact Or.inr ⟨k, hl.symm⟩
    · simp only [LinkedSeqs.append, Function.update_of_ne hf] at hl
      exact h.lists f l hl
  · intro hdrain
    simp [LinkedSeqs.append, hmain hdrain]
  · intro f fr' hfr' hflag'
    by_cases hf : f = next
    · subst hf
      rw [Function.update_self, Option.some.injEq] at hfr'
      rw [← hfr', hflag] at hflag'
      simp at hflag'
    · rw [Function.update_of_ne hf] at hfr'
      simpa [LinkedSeqs.append, Function.update_of_ne hf] using h.detached f fr' hfr' hflag'
  · intro f hf
    rw [Function.update_of_ne (Nat.ne_of_gt hf)]
    exact h.fresh f (Nat.le_of_succ_le hf)
  · intro f fr' hfr'
    by_cases hf : f = next
    · subst hf
      rw [Function.update_self, Option.some.injEq] at hfr'
      exact ⟨t, ht, hfr' ▸ hco, ph, hself⟩
    · rw [Function.update_of_ne hf] at hfr'
      obtain ⟨u, hu, hco', ph', hpc⟩ := h.owner f fr' hfr'
      have hut : u ≠ t := by
        rintro rfl
        exact hnot ph' f hpc
      exact ⟨u, hu, hco', ph', (hpoll u hu hut ph' f).mpr hpc⟩
  · intro u hu ph' f hpc
    by_cases hut : u = t
    · subst hut
      rw [hself, Pc.polling.injEq] at hpc
      exact ⟨fr, by simp [← hpc.2], hco⟩
    · obtain ⟨fr', hfr', hco'⟩ := h.asleep u hu ph' f ((hpoll u hu hut ph' f).mp hpc)
      refine ⟨fr', ?_, hco'⟩
      rw [Function.update_of_ne (hne f (by simp [hfr'])), hfr']
  · intro fd r hr
    rcases hset fd r hr with hold | ⟨hframe, hfd, hitem⟩
    · obtain ⟨hfd, fr', hfr', hitem⟩ := h.registered fd r hold
      refine ⟨hfd, fr', ?_, hitem⟩
      rw [Function.update_of_ne (hne _ (by simp [hfr'])), hfr']
    · exact ⟨hfd, fr, by simp [hframe], hitem⟩

/-- The event loop takes the call `f` of the task `t` off the active list, and
the call returns. -/
theorem wake (h : FrameInv n pcs L frames set next) {t : TaskId} {ph : Phase}
    {f : FrameId} {fr : PollFrame} (hfr : frames f = some fr)
    (hco : fr.coroutine = .worker t) (hactive : L.parent f = some .active)
    (hself : pcs (.worker t) = .polling ph f)
    (hpc : ∀ ph f, pcs' (.worker t) ≠ .polling ph f)
    (hpoll : ∀ u < n, u ≠ t → ∀ ph f,
      pcs' (.worker u) = .polling ph f ↔ pcs (.worker u) = .polling ph f)
    (hmain : pcs' .main = .draining)
    (hset : ∀ fd r, set' fd = some r → set fd = some r)
    (hown : ∀ fd r, set' fd = some r → ¬ watched fr.fds fd) :
    FrameInv n pcs' (L.unlink .active f) (Function.update frames f none) set' next := by
  -- A call belongs to one task, and a task sleeps in one call.
  have hinj : ∀ g gr, frames g = some gr → gr.coroutine = .worker t → g = f := by
    intro g gr hgr hgco
    obtain ⟨u, hu, huco, ph', hupc⟩ := h.owner g gr hgr
    rw [huco, CoId.worker.injEq] at hgco
    rw [hgco, hself, Pc.polling.injEq] at hupc
    exact hupc.2.symm
  refine
    { linked := h.linked.unlink hactive
      live_iff := ?_
      lists := ?_
      active := fun hne => absurd hmain hne
      detached := ?_
      fresh := ?_
      owner := ?_
      asleep := ?_
      registered := ?_ }
  · intro g
    by_cases hg : g = f
    · simp [hg, LinkedSeqs.unlink]
    · simp [LinkedSeqs.unlink, Function.update_of_ne hg, h.live_iff g]
  · intro g l hl
    by_cases hg : g = f
    · simp [hg, LinkedSeqs.unlink] at hl
    · simp only [LinkedSeqs.unlink, Function.update_of_ne hg] at hl
      exact h.lists g l hl
  · intro g gr hgr hflag
    by_cases hg : g = f
    · simp [hg] at hgr
    · rw [Function.update_of_ne hg] at hgr
      simpa [LinkedSeqs.unlink, Function.update_of_ne hg] using h.detached g gr hgr hflag
  · intro g hg
    by_cases hgf : g = f
    · simp [hgf]
    · rw [Function.update_of_ne hgf]
      exact h.fresh g hg
  · intro g gr hgr
    by_cases hg : g = f
    · simp [hg] at hgr
    · rw [Function.update_of_ne hg] at hgr
      obtain ⟨u, hu, huco, ph', hupc⟩ := h.owner g gr hgr
      have hut : u ≠ t := by
        rintro rfl
        exact hg (hinj g gr hgr huco)
      exact ⟨u, hu, huco, ph', (hpoll u hu hut ph' g).mpr hupc⟩
  · intro u hu ph' g hupc
    have hut : u ≠ t := by
      rintro rfl
      exact hpc ph' g hupc
    obtain ⟨gr, hgr, hgco⟩ := h.asleep u hu ph' g ((hpoll u hu hut ph' g).mp hupc)
    have hg : g ≠ f := by
      rintro rfl
      rw [hfr, Option.some.injEq] at hgr
      rw [← hgr, hco, CoId.worker.injEq] at hgco
      exact hut hgco.symm
    exact ⟨gr, by rw [Function.update_of_ne hg, hgr], hgco⟩
  · intro fd r hr
    obtain ⟨hfd, gr, hgr, p, hp, hpfd⟩ := h.registered fd r (hset fd r hr)
    have hg : r.frame ≠ f := by
      intro hg
      rw [hg, hfr, Option.some.injEq] at hgr
      subst hgr
      exact hown fd r hr ⟨hfd, p, List.mem_of_getElem? hp, hpfd⟩
    exact ⟨hfd, gr, by rw [Function.update_of_ne hg, hgr], p, hp, hpfd⟩

end FrameInv

namespace Sys

variable (s : Sys)

theorem pc_update (cos : CoId → Coroutine) (c : CoId) (co : Coroutine) :
    (fun d => (Function.update cos c co d).pc) =
      Function.update (fun d => (cos d).pc) c co.pc :=
  Function.comp_update Coroutine.pc cos c co

theorem pc_setPc (c : CoId) (p : Pc) : (s.setPc c p).pc = Function.update s.pc c p :=
  pc_update ..

theorem pc_spawned (c : CoId) (ph : Phase) (t : TaskId) (attr : TaskAttr) :
    (s.spawned c ph t attr).pc =
      Function.update (Function.update s.pc c (.newTask ph)) (.worker t) (.user .fn) := by
  change (fun d => ((s.spawned c ph t attr).coroutines d).pc) = _
  simp only [spawned, pc_update]
  rfl

theorem pc_suspended (last : CoId) (ph : Phase) (t : TaskId) (call : PollCall) :
    (s.suspended last ph t call).pc =
      Function.update (Function.update s.pc (.worker t) (.polling ph s.nextFrame)) last
        (s.pc last).landed := by
  change (fun d => ((s.suspended last ph t call).coroutines d).pc) = _
  simp only [suspended, pc_update]
  rfl

theorem pc_finished (last : CoId) (t : TaskId) :
    (s.finished last t).pc =
      Function.update (Function.update s.pc (.worker t) .waiting) last
        (s.pc last).landed := by
  change (fun d => ((s.finished last t).coroutines d).pc) = _
  simp only [finished, pc_update]
  rfl

theorem pc_callingBack (t : TaskId) :
    (s.callingBack t).pc = Function.update s.pc (.worker t) (.user .callback) :=
  pc_update ..

theorem pc_woken (f : FrameId) (fr : PollFrame) (t : TaskId) (ph : Phase) :
    (s.woken f fr t ph).pc = Function.update s.pc (.worker t) (.user ph) :=
  pc_update ..

end Sys

/-- Moving one coroutine does not change who is at a place it neither leaves nor
reaches. -/
theorem update_place_iff {Q : Pc → Prop} {pcs : CoId → Pc} {c : CoId} {p : Pc}
    (h : Q p ↔ Q (pcs c)) (d : CoId) : Q (Function.update pcs c p d) ↔ Q (pcs d) := by
  by_cases hd : d = c
  · rw [hd, Function.update_self, h]
  · rw [Function.update_of_ne hd]

namespace Inv

variable {n : Nat} {s : Sys}

/-- A step that leaves the call stack, the coroutines, the pool and the live calls
alone, changes tasks in their deadline fields only and at most drops
registrations. -/
theorem of_same (h : Inv n s) {s' : Sys} (hstack : s'.callstack = s.callstack)
    (hco : s'.coroutines = s.coroutines) (hpool : s'.pool = s.pool)
    (htasks : ∀ t, (s'.tasks t).coroutine = (s.tasks t).coroutine ∧
      (s'.tasks t).next = (s.tasks t).next ∧ (s'.tasks t).state = (s.tasks t).state)
    (hlists : s'.lists = s.lists) (hframes : s'.frames = s.frames)
    (hset : ∀ fd r, s'.epollSet fd = some r → s.epollSet fd = some r)
    (hnext : s.nextFrame ≤ s'.nextFrame) : Inv n s' := by
  have hpc : s'.pc = s.pc := by
    funext c
    simp [Sys.pc, hco]
  refine ⟨?_, ?_, ?_, ?_⟩
  · rw [hstack, hpc]
    exact h.discipline
  · rw [hco]
    exact h.paired.congr (fun _ => ⟨rfl, rfl, rfl⟩) fun t => (htasks t).1
  · rw [hpool, hpc]
    exact h.pool.congr (fun _ _ => Iff.rfl) fun t => (htasks t).2
  · rw [hlists, hframes, hpc]
    exact h.frames.congr (fun _ _ _ _ => Iff.rfl) h.frames.active hset hnext

theorem fixed_tasks (t : TaskId) (call : PollCall) (u : TaskId) :
    ((s.fixed t call).tasks u).coroutine = (s.tasks u).coroutine ∧
      ((s.fixed t call).tasks u).next = (s.tasks u).next ∧
      ((s.fixed t call).tasks u).state = (s.tasks u).state := by
  by_cases hu : u = t
  · subst hu
    obtain ⟨timeout', leftmsec', last', heq⟩ :=
      fixCoroutineTimeout_task (s.tasks u) s.now call.timeout
    simp [Sys.fixed, Sys.fix, heq]
  · simp [Sys.fixed, Function.update_of_ne hu]

theorem spawned (h : Inv n s) {c : CoId} {ph : Phase} {t : TaskId} {attr : TaskAttr}
    (hcurr : s.curr = some c) (hpc : s.pc c = .user ph) (hfree : s.pool.free = some t) :
    Inv n (s.spawned c ph t attr) := by
  obtain ⟨ht, hwait⟩ := h.pool.of_free hfree
  have hfits := h.discipline.fits (List.mem_of_getLast? hcurr)
  rw [hpc] at hfits
  refine ⟨?_, ?_, ?_, ?_⟩
  · rw [Sys.pc_spawned]
    exact h.discipline.push hcurr rfl (Pc.fits_newTask hfits) ht (by rw [hwait]; rfl)
      (by simp)
  · refine h.paired.congr ?_ ?_
    · intro d
      by_cases hd : d = .worker t
      · simp [Sys.spawned, hd]
      · by_cases hc : d = c
        · subst hc
          simp [Sys.spawned, Function.update_of_ne hd]
        · simp [Sys.spawned, Function.update_of_ne hd, Function.update_of_ne hc]
    · intro u
      by_cases hu : u = t
      · simp [Sys.spawned, hu, Task.submit]
      · simp [Sys.spawned, Function.update_of_ne hu]
  · rw [Sys.pc_spawned]
    refine h.pool.pop hfree rfl (by simp) ?_
    intro u _ hut
    rw [Function.update_of_ne (by simpa using hut)]
    exact update_place_iff (Q := fun p => p = .waiting) (by simp [hpc]) _
  · rw [Sys.pc_spawned]
    refine h.frames.congr ?_ ?_ (fun _ _ hr => hr) (Nat.le_refl _)
    · intro u _ ph' f
      rw [update_place_iff (Q := fun p => p = .polling ph' f),
        update_place_iff (Q := fun p => p = .polling ph' f)]
      · simp [hpc]
      · rw [update_place_iff (Q := fun p => p = .polling ph' f) (by simp [hpc])]
        simp [hwait]
    · rw [Function.update_of_ne (by simp), Ne,
        update_place_iff (Q := fun p => p = .draining) (by simp [hpc])]
      exact h.frames.active

theorem rejected (h : Inv n s) (t : TaskId) (call : PollCall) :
    Inv n (s.rejected t call) := by
  refine h.of_same rfl rfl rfl (fixed_tasks t call) rfl rfl ?_ (Nat.le_succ _)
  intro fd r hr
  simp only [Sys.rejected, delEpoll_set, ite_eq_iff, reduceCtorEq, and_false, false_or]
    at hr
  -- What the call itself registered is gone again.
  rcases addEpoll_cases hr.2 with hold | ⟨-, hfd, -, p, hp, hpfd⟩
  · exact hold
  · exact absurd ⟨hfd, p, List.mem_of_getElem? hp, hpfd⟩ hr.1

theorem suspended (h : Inv n s) {last : CoId} {ph : Phase} {t : TaskId} {call : PollCall}
    (ht : t < n) (hcurr : s.curr = some (.worker t)) (hpc : s.pc (.worker t) = .user ph)
    (hlast : s.callstack.dropLast.getLast? = some last) (hne : last ≠ .worker t) :
    Inv n (s.suspended last ph t call) := by
  have hfits := h.discipline.fits (List.mem_of_getLast? hcurr)
  rw [hpc] at hfits
  have hph := Pc.ne_main_of_fits hfits
  refine ⟨?_, ?_, ?_, ?_⟩
  · rw [Sys.pc_suspended]
    exact h.discipline.pop hcurr hlast rfl (by simp [Pc.ofWorker, hph])
  · refine h.paired.congr ?_ fun u => (fixed_tasks t call u).1
    intro d
    by_cases hd : d = last
    · subst hd
      simp [Sys.suspended]
    · by_cases hdt : d = .worker t
      · subst hdt
        simp [Sys.suspended, Function.update_of_ne hd]
      · simp [Sys.suspended, Function.update_of_ne hd, Function.update_of_ne hdt]
  · rw [Sys.pc_suspended]
    refine h.pool.congr ?_ fun u => (fixed_tasks t call u).2
    intro u _
    rw [update_place_iff (Q := fun p => p = .waiting),
      update_place_iff (Q := fun p => p = .waiting)]
    · simp [hpc]
    · rw [Function.update_of_ne hne, Pc.landed_eq_waiting]
  · rw [Sys.pc_suspended]
    have hself : Function.update (Function.update s.pc (.worker t)
        (.polling ph s.nextFrame)) last (s.pc last).landed (.worker t) =
          .polling ph s.nextFrame := by
      rw [Function.update_of_ne hne.symm, Function.update_self]
    refine h.frames.suspend ht rfl rfl hself (by simp [hpc]) ?_ ?_ ?_
    · intro u _ hut ph' f
      rw [update_place_iff (Q := fun p => p = .polling ph' f),
        Function.update_of_ne (by simpa using hut)]
      rw [Function.update_of_ne hne, Pc.landed_eq_polling]
    · rw [Ne, update_place_iff (Q := fun p => p = .draining),
        Function.update_of_ne (by simp)]
      · exact h.frames.active
      · rw [Function.update_of_ne hne, Pc.landed_eq_draining]
    · intro fd r hr
      rcases addEpoll_cases hr with hold | ⟨hframe, hfd, -, p, hp, hpfd⟩
      · exact Or.inl hold
      · exact Or.inr ⟨hframe, hfd, p, by simpa [Sys.frameAt] using hp, hpfd⟩

theorem finished (h : Inv n s) {last : CoId} {ph : Phase} {t : TaskId} (ht : t < n)
    (hcurr : s.curr = some (.worker t)) (hpc : s.pc (.worker t) = .user ph)
    (hlast : s.callstack.dropLast.getLast? = some last) (hne : last ≠ .worker t) :
    Inv n (s.finished last t) := by
  refine ⟨?_, ?_, ?_, ?_⟩
  · rw [Sys.pc_finished]
    exact h.discipline.pop hcurr hlast rfl rfl
  · refine h.paired.congr ?_ ?_
    · intro d
      by_cases hd : d = last
      · subst hd
        simp [Sys.finished]
      · by_cases hdt : d = .worker t
        · subst hdt
          simp [Sys.finished, Function.update_of_ne hd]
        · simp [Sys.finished, Function.update_of_ne hd, Function.update_of_ne hdt]
    · intro u
      by_cases hu : u = t
      · simp [Sys.finished, hu, Task.release]
      · simp [Sys.finished, Function.update_of_ne hu]
  · rw [Sys.pc_finished]
    refine h.pool.push ht (by simp [hpc]) rfl rfl ?_ ?_
    · rw [Function.update_of_ne hne.symm, Function.update_self]
    · intro u _ hut
      rw [update_place_iff (Q := fun p => p = .waiting),
        Function.update_of_ne (by simpa using hut)]
      rw [Function.update_of_ne hne, Pc.landed_eq_waiting]
  · rw [Sys.pc_finished]
    refine h.frames.congr ?_ ?_ (fun _ _ hr => hr) (Nat.le_refl _)
    · intro u _ ph' f
      rw [update_place_iff (Q := fun p => p = .polling ph' f),
        update_place_iff (Q := fun p => p = .polling ph' f)]
      · simp [hpc]
      · rw [Function.update_of_ne hne, Pc.landed_eq_polling]
    · rw [Ne, update_place_iff (Q := fun p => p = .draining),
        Function.update_of_ne (by simp)]
      · exact h.frames.active
      · rw [Function.update_of_ne hne, Pc.landed_eq_draining]

/-- The coroutine on top moves to another place in which it has control. -/
theorem retag (h : Inv n s) {s' : Sys} {c : CoId} {p q : Pc} (hcurr : s.curr = some c)
    (hpc : s.pc c = q) (hq : q.isRunning) (hrun : p.isRunning) (hfits : p.fits c)
    (hpcs : s'.pc = Function.update s.pc c p)
    (hco : ∀ d, (s'.coroutines d).task = (s.coroutines d).task ∧
      (s'.coroutines d).arg = (s.coroutines d).arg ∧
      (s'.coroutines d).state = (s.coroutines d).state)
    (hstack : s'.callstack = s.callstack) (hpool : s'.pool = s.pool)
    (htasks : s'.tasks = s.tasks)
    (hframes : FrameInv n s'.pc s'.lists s'.frames s'.epollSet s'.nextFrame) : Inv n s' := by
  refine ⟨?_, ?_, ?_, hframes⟩
  · rw [hstack, hpcs]
    exact h.discipline.retag hcurr hrun hfits
  · exact h.paired.congr hco fun t => by rw [htasks]
  · rw [hpool, htasks, hpcs]
    refine h.pool.congr ?_ fun _ => ⟨rfl, rfl⟩
    intro t _
    refine update_place_iff (Q := fun p => p = .waiting) ?_ _
    rw [hpc]
    constructor
    · rintro rfl
      simp [Pc.isRunning] at hrun
    · rintro rfl
      simp [Pc.isRunning] at hq

/-- A coroutine that has control is not asleep, before and after such a move. -/
theorem frames_retag (h : Inv n s) {c : CoId} {p q : Pc} (hpc : s.pc c = q)
    (hq : q.isRunning) (hrun : p.isRunning)
    (hmain : Function.update s.pc c p .main ≠ .draining → s.lists.seq .active = []) :
    FrameInv n (Function.update s.pc c p) s.lists s.frames s.epollSet s.nextFrame := by
  refine h.frames.congr ?_ hmain (fun _ _ hr => hr) (Nat.le_refl _)
  intro t _ ph f
  refine update_place_iff (Q := fun p => p = .polling ph f) ?_ _
  rw [hpc]
  constructor
  · rintro rfl
    simp [Pc.isRunning] at hrun
  · rintro rfl
    simp [Pc.isRunning] at hq

theorem callingBack (h : Inv n s) {t : TaskId} (hcurr : s.curr = some (.worker t))
    (hpc : s.pc (.worker t) = .user .fn) : Inv n (s.callingBack t) := by
  refine h.retag hcurr hpc rfl rfl rfl (Sys.pc_callingBack s t) ?_ rfl rfl rfl ?_
  · intro d
    by_cases hd : d = .worker t <;> simp [Sys.callingBack, hd]
  · rw [Sys.pc_callingBack]
    refine h.frames_retag hpc rfl rfl ?_
    rw [Function.update_of_ne (by simp)]
    exact h.frames.active

theorem enterEventloop (h : Inv n s) (hcurr : s.curr = some .main)
    (hpc : s.pc .main = .user .main) (tick : Nat) : Inv n (s.enterEventloop tick) := by
  have hpcs : (s.enterEventloop tick).pc = Function.update s.pc .main .loopHead :=
    Sys.pc_setPc ..
  refine h.retag hcurr hpc rfl rfl rfl hpcs ?_ rfl rfl rfl ?_
  · intro d
    by_cases hd : d = .main <;> simp [Sys.enterEventloop, Sys.setPc, Sys.setCo, Sys.emit, hd]
  · rw [hpcs]
    exact h.frames_retag hpc rfl rfl fun _ => h.frames.active (by simp [hpc])

theorem drained (h : Inv n s) (hcurr : s.curr = some .main)
    (hpc : s.pc .main = .draining) (hactive : s.lists.seq .active = []) :
    Inv n (s.setPc .main .loopHead) := by
  refine h.retag hcurr hpc rfl rfl rfl (Sys.pc_setPc ..) ?_ rfl rfl rfl ?_
  · intro d
    by_cases hd : d = .main <;> simp [Sys.setPc, Sys.setCo, hd]
  · rw [Sys.pc_setPc]
    exact h.frames_retag hpc rfl rfl fun _ => hactive

theorem woken (h : Inv n s) {f : FrameId} {rest : List FrameId} {fr : PollFrame}
    {t : TaskId} {ph : Phase} (hcurr : s.curr = some .main) (hpc : s.pc .main = .draining)
    (hactive : s.lists.seq .active = f :: rest) (hframe : s.frames f = some fr) (ht : t < n)
    (hco : fr.coroutine = .worker t) (hpoll : s.pc (.worker t) = .polling ph f) :
    Inv n (s.woken f fr t ph) := by
  have hparent : s.lists.parent f = some .active :=
    (h.frames.linked.mem_iff _ _).mp (by simp [hactive])
  have hph : ph ≠ .main := by
    have hfits := h.discipline.worker_fits t ht
    rw [hpoll] at hfits
    simpa [Pc.ofWorker] using hfits
  refine ⟨?_, ?_, ?_, ?_⟩
  · have hpush := h.discipline.push (p := .draining) hcurr rfl rfl ht
      (by rw [hpoll]; rfl) hph
    rw [← hpc, Function.update_eq_self] at hpush
    rw [Sys.pc_woken]
    exact hpush
  · refine h.paired.congr ?_ fun _ => rfl
    intro d
    by_cases hd : d = .worker t <;> simp [Sys.woken, hd]
  · rw [Sys.pc_woken]
    refine h.pool.congr ?_ fun _ => ⟨rfl, rfl⟩
    intro u _
    exact update_place_iff (Q := fun p => p = .waiting) (by simp [hpoll]) _
  · rw [Sys.pc_woken]
    refine h.frames.wake hframe hco hparent hpoll (by simp) ?_ ?_ ?_ ?_
    · intro u _ hut ph' g
      rw [Function.update_of_ne (by simpa using hut)]
    · rw [Function.update_of_ne (by simp), hpc]
    · intro fd r hr
      simp only [Sys.woken, delEpoll_set, ite_eq_iff, reduceCtorEq, and_false, false_or] at hr
      exact hr.2
    · intro fd r hr
      simp only [Sys.woken, delEpoll_set, ite_eq_iff, reduceCtorEq, and_false, false_or] at hr
      exact hr.1

/-- What an iteration leaves of a live call. -/
theorem iterate_frame (h : Inv n s) (hpc : s.pc .main = .loopHead) {events : Sys.Events}
    (hset : ∀ e ∈ events, (s.epollSet e.1).isSome) (tick : Nat) {f : FrameId}
    {fr : PollFrame} (hfr : s.frames f = some fr) :
    ∃ fr', (s.iterate events tick).frames f = some fr' ∧ fr'.coroutine = fr.coroutine ∧
      fr'.fds = fr.fds ∧ fr'.expire = fr.expire ∧
      fr'.allEventDetatch = decide (f ∈ targets s.epollSet events) := by
  obtain ⟨fr', hfr', hrest⟩ := (h.prepared hpc hset).live f fr hfr
  rw [h.iterate_eq]
  by_cases hdue : f ∈ s.due events tick
  · exact ⟨{ fr' with timeout := true }, by simp [hdue, hfr'], hrest⟩
  · exact ⟨fr', by simp [hdue, hfr'], hrest⟩

theorem iterate_dead (h : Inv n s) (hpc : s.pc .main = .loopHead) {events : Sys.Events}
    (hset : ∀ e ∈ events, (s.epollSet e.1).isSome) (tick : Nat) {f : FrameId}
    (hf : s.frames f = none) : (s.iterate events tick).frames f = none := by
  have hdead := (h.prepared hpc hset).dead f hf
  rw [h.iterate_eq]
  simp [hdead]

/-- What is live after an iteration was live before it. -/
theorem iterate_origin (h : Inv n s) (hpc : s.pc .main = .loopHead) {events : Sys.Events}
    (hset : ∀ e ∈ events, (s.epollSet e.1).isSome) (tick : Nat) {f : FrameId}
    {fr' : PollFrame} (hfr' : (s.iterate events tick).frames f = some fr') :
    ∃ fr, s.frames f = some fr ∧ fr'.coroutine = fr.coroutine ∧ fr'.fds = fr.fds ∧
      fr'.expire = fr.expire ∧
      fr'.allEventDetatch = decide (f ∈ targets s.epollSet events) := by
  cases hfr : s.frames f with
  | none =>
      rw [h.iterate_dead hpc hset tick hfr] at hfr'
      simp at hfr'
  | some fr =>
      obtain ⟨fr'', hfr'', hrest⟩ := h.iterate_frame hpc hset tick hfr
      obtain rfl : fr' = fr'' := Option.some_inj.mp (hfr'.symm.trans hfr'')
      exact ⟨fr, rfl, hrest⟩

/-- What an iteration does not touch. -/
theorem iterate_rest (h : Inv n s) (hpc : s.pc .main = .loopHead) {events : Sys.Events}
    (hset : ∀ e ∈ events, (s.epollSet e.1).isSome) (tick : Nat) :
    s.iterate events tick =
      { s.setPc .main .draining with
        now := tick
        wheel := (s.iterate events tick).wheel
        lists := (s.iterate events tick).lists
        frames := (s.iterate events tick).frames
        trace := (s.iterate events tick).trace } := by
  have hrest := (h.prepared hpc hset).rest
  rw [h.iterate_eq]
  rw [hrest]
  rfl

theorem iterate_linked (h : Inv n s) (hpc : s.pc .main = .loopHead) {events : Sys.Events}
    (hset : ∀ e ∈ events, (s.epollSet e.1).isSome) (tick : Nat) :
    (s.iterate events tick).lists.WellLinked := by
  rw [h.iterate_eq]
  exact (h.taken_linked hpc hset tick).splice (by simp)

/-- The calls that events were delivered to are on the active list. -/
theorem iterate_target (h : Inv n s) (hpc : s.pc .main = .loopHead) {events : Sys.Events}
    (hset : ∀ e ∈ events, (s.epollSet e.1).isSome) (tick : Nat) {f : FrameId}
    (hf : f ∈ targets s.epollSet events) :
    (s.iterate events tick).lists.parent f = some .active := by
  have hp := h.prepared hpc hset
  have hparent := (hp.linked.mem_iff _ _).mp ((hp.active f).mpr hf)
  rw [h.iterate_eq]
  simp only [LinkedSeqs.splice, ite_eq_left_iff]
  intro _
  rcases parent_takeAllTimeout (w := (s.prepared events).wheel) hp.linked tick f with
    heq | ⟨⟨k, hk⟩, -⟩
  · exact heq.trans hparent
  · rw [hparent] at hk
    simp at hk

theorem iterate_frames (h : Inv n s) (hpc : s.pc .main = .loopHead) {events : Sys.Events}
    (hset : ∀ e ∈ events, (s.epollSet e.1).isSome) (tick : Nat) :
    FrameInv n (Function.update s.pc .main .draining) (s.iterate events tick).lists
      (s.iterate events tick).frames s.epollSet s.nextFrame := by
  have hframe : ∀ f fr, s.frames f = some fr → _ := fun _ _ hfr =>
    h.iterate_frame hpc hset tick hfr
  refine
    { linked := h.iterate_linked hpc hset tick
      live_iff := ?_
      lists := ?_
      active := by simp
      detached := ?_
      fresh := fun f hf => h.iterate_dead hpc hset tick (h.frames.fresh f hf)
      owner := ?_
      asleep := ?_
      registered := ?_ }
  · intro f
    have hlive := h.frames.live_iff f
    cases hfr : s.frames f with
    | none =>
        rw [hfr] at hlive
        rw [h.iterate_dead hpc hset tick hfr]
        rcases h.iterate_parent hpc hset tick f with heq | ⟨⟨k, hk⟩, -⟩
        · rw [heq, hlive]
        · simp [hk] at hlive
    | some fr =>
        rw [hfr] at hlive
        obtain ⟨fr', hfr', -⟩ := hframe f fr hfr
        rw [hfr']
        rcases h.iterate_parent hpc hset tick f with heq | ⟨-, heq⟩
        · rw [heq, hlive]
          rfl
        · rw [heq]
          rfl
  · intro f l hl
    rcases h.iterate_parent hpc hset tick f with heq | ⟨-, heq⟩
    · exact h.frames.lists f l (heq ▸ hl)
    · rw [heq, Option.some.injEq] at hl
      exact Or.inl hl.symm
  · intro f fr' hfr' hflag
    obtain ⟨fr, hfr, -, -, -, hmem⟩ := h.iterate_origin hpc hset tick hfr'
    rw [hflag, eq_comm, decide_eq_true_eq] at hmem
    exact h.iterate_target hpc hset tick hmem
  · intro f fr' hfr'
    obtain ⟨fr, hfr, hco, -⟩ := h.iterate_origin hpc hset tick hfr'
    obtain ⟨t, ht, hco', ph, hpoll⟩ := h.frames.owner f fr hfr
    exact ⟨t, ht, hco.trans hco', ph, by simpa using hpoll⟩
  · intro t ht ph f hpoll
    obtain ⟨fr, hfr, hco⟩ := h.frames.asleep t ht ph f (by simpa using hpoll)
    obtain ⟨fr', hfr', hco', -⟩ := hframe f fr hfr
    exact ⟨fr', hfr', hco'.trans hco⟩
  · intro fd r hr
    obtain ⟨hfd, fr, hfr, p, hp, hpfd⟩ := h.frames.registered fd r hr
    obtain ⟨fr', hfr', -, hfds, -⟩ := hframe _ fr hfr
    exact ⟨hfd, fr', hfr', p, by rw [hfds, hp], hpfd⟩

theorem iterate (h : Inv n s) (hcurr : s.curr = some .main) (hpc : s.pc .main = .loopHead)
    {events : Sys.Events} (hset : ∀ e ∈ events, (s.epollSet e.1).isSome) (tick : Nat) :
    Inv n (s.iterate events tick) := by
  have hrest := h.iterate_rest hpc hset tick
  have hpcs : (s.iterate events tick).pc = Function.update s.pc .main .draining := by
    rw [hrest]
    exact Sys.pc_setPc ..
  refine h.retag hcurr hpc rfl rfl rfl hpcs ?_ ?_ ?_ ?_ ?_
  · intro d
    rw [hrest]
    by_cases hd : d = .main <;> simp [Sys.setPc, Sys.setCo, hd]
  · rw [hrest]
    rfl
  · rw [hrest]
    rfl
  · rw [hrest]
    rfl
  · rw [hpcs]
    have hframes := h.iterate_frames hpc hset tick
    rw [hrest] at hframes ⊢
    exact hframes

end Inv

/-- Every transition keeps the scheduling invariant. -/
theorem Transition.inv {n : Nat} {s s' : Sys} {a : Act} (htr : Transition n s a s')
    (h : Inv n s) : Inv n s' := by
  cases htr with
  | full => exact h
  | spawn hcurr hpc _ hfree => exact h.spawned hcurr hpc hfree
  | expired =>
      exact h.of_same rfl rfl rfl (Inv.fixed_tasks _ _) rfl rfl (fun _ _ hr => hr)
        (Nat.le_refl _)
  | fallback =>
      exact h.of_same rfl rfl rfl (Inv.fixed_tasks _ _) rfl rfl (fun _ _ hr => hr)
        (Nat.le_succ _)
  | reject => exact h.rejected _ _
  | suspend ht hcurr hpc hlast =>
      obtain ⟨last, hlast', hne⟩ := h.exists_last hcurr
      rw [hlast, Option.some.injEq] at hlast'
      exact h.suspended ht hcurr hpc hlast (hlast' ▸ hne)
  | callback ht hcurr hpc => exact h.callingBack hcurr hpc
  | finish ht hcurr hpc hlast =>
      obtain ⟨last, hlast', hne⟩ := h.exists_last hcurr
      rw [hlast, Option.some.injEq] at hlast'
      exact h.finished ht hcurr hpc hlast (hlast' ▸ hne)
  | @close _ _ fd =>
      refine h.of_same rfl rfl rfl (fun _ => ⟨rfl, rfl, rfl⟩) rfl rfl ?_ (Nat.le_refl _)
      intro fd' r hr
      by_cases hfd : fd' = fd
      · simp [Sys.closeFd, Sys.emit, hfd] at hr
      · simpa [Sys.closeFd, Sys.emit, Function.update_of_ne hfd] using hr
  | self =>
      exact h.of_same rfl rfl rfl (fun _ => ⟨rfl, rfl, rfl⟩) rfl rfl (fun _ _ hr => hr)
        (Nat.le_refl _)
  | eventloop hcurr hpc => exact h.enterEventloop hcurr hpc _
  | iterate hcurr hpc hset => exact h.iterate hcurr hpc hset _
  | drained hcurr hpc hactive => exact h.drained hcurr hpc hactive
  | wake hcurr hpc hactive hframe ht hco hpoll =>
      exact h.woken hcurr hpc hactive hframe ht hco hpoll

/-- Where the call `f` comes from that is live after a step, as `fr`. -/
inductive FrameOrigin (s : Sys) (f : FrameId) (fr : PollFrame) : Act → Sys → Prop
  /-- The event loop has prepared a batch of events, which may be for the call. -/
  | iterated {events : Sys.Events} {tick : Nat} (hpc : s.pc .main = .loopHead)
      (hset : ∀ e ∈ events, (s.epollSet e.1).isSome) :
      FrameOrigin s f fr (.iterate events tick) (s.iterate events tick)
  | untouched {a : Act} {s' : Sys} (ha : ∀ events tick, a ≠ .iterate events tick)
      (hold : s.frames f = some fr) (hparent : s'.lists.parent f = s.lists.parent f) :
      FrameOrigin s f fr a s'
  /-- The step has suspended the call, which now waits in the wheel. -/
  | suspended {t : TaskId} {call : PollCall} {s' : Sys} (hnew : f = s.nextFrame)
      (hfr : fr = s.frameAt t call) (hparent : s'.lists.parent f ≠ some .active) :
      FrameOrigin s f fr (.poll call) s'

theorem Transition.frame_origin {n : Nat} {s s' : Sys} {a : Act} (htr : Transition n s a s')
    {f : FrameId} {fr : PollFrame} (hfr : s'.frames f = some fr) : FrameOrigin s f fr a s' := by
  cases htr with
  | @suspend ph t call last =>
      by_cases hf : f = s.nextFrame
      · subst hf
        simp only [Sys.suspended, Function.update_self, Option.some_inj] at hfr
        exact .suspended rfl hfr.symm (by simp [Sys.suspended, LinkedSeqs.append])
      · simp only [Sys.suspended, Function.update_of_ne hf] at hfr
        exact .untouched (by simp) hfr (Function.update_of_ne hf ..)
  | iterate hcurr hpc hset => exact .iterated hpc hset
  | @wake g rest gr t ph =>
      by_cases hf : f = g
      · simp [Sys.woken, hf] at hfr
      · simp only [Sys.woken, Function.update_of_ne hf] at hfr
        exact .untouched (by simp) hfr (Function.update_of_ne hf ..)
  | _ => exact .untouched (by simp) hfr rfl

end Libcr
