import Libcr.Scheduler.Execution

/-!
# Deadlines and the clock

`fix_coroutine_timeout` takes from the budget of a task what the cached time has
advanced since its last call. The differences add up to the time since the task
was created as long as none of them is cut off by the conversion to `int`. That
sum is a time on the clock only if the cached time was up to date when the task
was created: before the event loop it is 0, and while tasks poll the clock is
read without the cache being refreshed.
-/

namespace Libcr

/-- The readings of `GetTickMS`, in order. -/
def clocksOf (os : List Obs) : List Nat :=
  os.filterMap fun
    | .clock reading => some reading
    | _ => none

/-- The last reading of the clock. -/
def lastClock (os : List Obs) : Nat := (clocksOf os).getLastD 0

@[simp] theorem clocksOf_append (os os' : List Obs) :
    clocksOf (os ++ os') = clocksOf os ++ clocksOf os' := by
  simp [clocksOf]

theorem mem_clocksOf {os : List Obs} {reading : Nat} (h : .clock reading ∈ os) :
    reading ∈ clocksOf os :=
  List.mem_filterMap.mpr ⟨_, h, rfl⟩

section Steps

variable {n : Nat} {s s' : Sys} {a : Act} {t : TaskId}

/-- A step leaves the cached time alone or refreshes it with a reading. -/
theorem Transition.now_cases (htr : Transition n s a s') (h : Inv n s) :
    ∃ os, s'.trace = s.trace ++ os ∧ (s'.now = s.now ∨ .clock s'.now ∈ os) := by
  obtain ⟨os, hos, -⟩ := htr.records h
  refine ⟨os, hos, ?_⟩
  cases htr with
  | eventloop =>
      obtain rfl := List.append_cancel_left hos
      exact Or.inr (List.mem_singleton.mpr rfl)
  | @iterate events tick hcurr hpc hset =>
      obtain ⟨seg, htrace, -⟩ := h.iterate_trace hpc hset tick
      obtain rfl := List.append_cancel_left (htrace.symm.trans hos)
      rw [h.iterate_rest hpc hset]
      simp
  | _ => exact Or.inl rfl

/-- A step leaves the last refresh of a task alone or moves it to the cached time. -/
theorem Transition.last_cases (htr : Transition n s a s') (h : Inv n s) (t : TaskId) :
    (s'.tasks t).last = (s.tasks t).last ∨ (s'.tasks t).last = s.now := by
  have hfixed : ∀ u call, ((s.fixed u call).tasks t).last = (s.tasks t).last ∨
      ((s.fixed u call).tasks t).last = s.now := by
    intro u call
    by_cases ht : t = u
    · subst ht
      simpa [Sys.fixed, Sys.fix] using fixCoroutineTimeout_last (s.tasks t) s.now call.timeout
    · simp [Sys.fixed, Function.update_of_ne ht]
  cases htr with
  | expired | fallback | reject | suspend => exact hfixed _ _
  | @spawn c ph attr u =>
      by_cases ht : t = u
      · simp [Sys.spawned, ht, Task.submit]
      · simp [Sys.spawned, Function.update_of_ne ht]
  | @finish u ph last =>
      by_cases ht : t = u
      · simp [Sys.finished, ht, Task.release]
      · simp [Sys.finished, Function.update_of_ne ht]
  | iterate hcurr hpc hset =>
      rw [h.iterate_rest hpc hset]
      exact Or.inl rfl
  | _ => exact Or.inl rfl

/-- The entry of a `fix_coroutine_timeout` call shows the task and the cached time as
they were before the step. -/
theorem Transition.fixed_cases (htr : Transition n s a s') (h : Inv n s)
    (hexec : (s.pc (.worker t)).phase ≠ none) {os₁ os₂ : List Obs} {now : Nat}
    {before after : Task} {istimeout : Bool}
    (htrace : s'.trace =
      s.trace ++ (os₁ ++ .fixed t now before after istimeout :: os₂)) :
    (∀ o ∈ os₁, o.ofTask ≠ some t) ∧ now = s.now ∧ before = s.tasks t ∧
      ∃ call, after = (s.fix t call).1 ∧ istimeout = (s.fix t call).2.2 := by
  obtain ⟨os, hos, hstep⟩ := htr.taskStep h hexec
  have heq : os = os₁ ++ .fixed t now before after istimeout :: os₂ := by
    rw [hos] at htrace
    exact List.append_cancel_left htrace
  have hmem : .fixed t now before after istimeout ∈ os := by simp [heq]
  cases hstep with
  | idle htask hphase hoff => exact absurd rfl (hoff _ hmem)
  | callback => simp at hmem
  | free hphase hoff =>
      simp only [List.mem_cons, reduceCtorEq, false_or] at hmem
      exact absurd rfl (hoff _ hmem)
  | @fix call pre post htask hphase hpre hpost =>
      rcases split_append heq with ⟨mid, rfl, -⟩ | ⟨mid, rfl, hmid⟩
      · exact absurd rfl (hpre (.fixed t now before after istimeout) (by simp))
      · cases mid with
        | nil =>
            simp only [List.nil_append, List.cons.injEq, Obs.fixed.injEq] at hmid
            obtain ⟨⟨-, rfl, rfl, rfl, rfl⟩, -⟩ := hmid
            rw [List.append_nil]
            exact ⟨hpre, rfl, rfl, call, rfl, rfl⟩
        | cons o mid =>
            rw [List.cons_append, List.cons.injEq] at hmid
            exact absurd rfl
              (hpost (.fixed t now before after istimeout) (by simp [hmid.2]))

end Steps

namespace Sys.Reached

variable {ok : Sys → Act → Prop} {tick : Nat} {size : Int} {s : Sys}

/-- The cached time is 0 or was read from the clock. -/
theorem now_read (h : Sys.Reached ok tick size s) : s.now = 0 ∨ .clock s.now ∈ s.trace := by
  refine h.induction (P := fun s => s.now = 0 ∨ .clock s.now ∈ s.trace) ?_ ?_
  · exact Or.inl (created tick size.toNat).now
  · intro u a v _ hinv _ htr hP
    obtain ⟨os, hos, hnow | hnow⟩ := htr.now_cases hinv
    · rw [hnow, hos]
      exact hP.imp_right (List.mem_append_left os)
    · rw [hos]
      exact Or.inr (List.mem_append_right _ hnow)

/-- Since a task was created the cached time is what it was then, or was read from the
clock since. -/
theorem now_since (h : Sys.Reached ok tick size s) {before os : List Obs} {t : TaskId}
    {attr : TaskAttr} {cached : Nat}
    (htrace : s.trace = before ++ .created t attr cached :: os) :
    s.now = cached ∨ .clock s.now ∈ os := by
  revert before os
  refine h.induction (P := fun s => ∀ {before os},
    s.trace = before ++ .created t attr cached :: os →
      s.now = cached ∨ .clock s.now ∈ os) ?_ ?_
  · intro before os htrace
    have hmem : .created t attr cached ∈ (Sys.init tick size).trace := by simp [htrace]
    exact absurd (init_trace hmem) (by simp [Obs.ofCreation])
  · intro u a v _ hinv _ htr hP before os htrace
    obtain ⟨new, hnew, hnow⟩ := htr.now_cases hinv
    rw [hnew] at htrace
    rcases split_append htrace with ⟨mid, hold, rfl⟩ | ⟨os₁, -, rfl⟩
    · rcases hnow with hnow | hnow
      · rw [hnow]
        exact (hP hold).imp_right (List.mem_append_left new)
      · exact Or.inr (List.mem_append_right mid hnow)
    · obtain ⟨-, rfl, -, c, ph, rfl, -⟩ := htr.created_cases hinv hnew
      exact Or.inl rfl

/-- While the clock does not go back, the cached time does not fall behind the last
refresh of a task. -/
theorem last_le_now (h : Sys.Reached ok tick size s)
    (hclock : (clocksOf s.trace).Pairwise (· ≤ ·)) (t : TaskId) :
    (s.tasks t).last ≤ s.now := by
  revert hclock
  refine h.induction (P := fun s => (clocksOf s.trace).Pairwise (· ≤ ·) →
    (s.tasks t).last ≤ s.now) ?_ ?_
  · intro _
    have hlast : ((Sys.init tick size).tasks t).last = 0 := (created tick size.toNat).last t
    rw [hlast]
    exact Nat.zero_le _
  · intro u a v hu hinv _ htr hP hclock
    obtain ⟨os, hos, hnow⟩ := htr.now_cases hinv
    rw [hos, clocksOf_append, List.pairwise_append] at hclock
    have hadvance : u.now ≤ v.now := by
      rcases hnow with hnow | hnow
      · exact Nat.le_of_eq hnow.symm
      · rcases hu.now_read with hzero | hread
        · rw [hzero]
          exact Nat.zero_le _
        · exact hclock.2.2 _ (mem_clocksOf hread) _ (mem_clocksOf hnow)
    rcases htr.last_cases hinv t with hlast | hlast
    · rw [hlast]
      exact Nat.le_trans (hP hclock.1) hadvance
    · rw [hlast]
      exact hadvance

end Sys.Reached

/-- The account of a task that was created with `attr` at the cached time `cached`: what
is left is the budget minus the cached time that has passed until the last refresh, and
the task is marked when nothing is left. -/
structure Task.Accounts (task : Task) (attr : TaskAttr) (cached : Nat) : Prop where
  attr_eq : task.attr = attr
  left : task.leftmsec = attr.maxTimeoutMs - ((task.last : Int) - cached)
  cached_le : cached ≤ task.last
  marked : task.timeout = true ↔ task.leftmsec ≤ 0

namespace Task.Accounts

variable {task : Task} {attr : TaskAttr} {cached now : Nat}

theorem of_submitted (h : task.Submitted attr cached) (hbudget : 0 < attr.maxTimeoutMs) :
    task.Accounts attr cached := by
  obtain ⟨hattr, hleft, htimeout, hlast⟩ := h
  refine ⟨hattr, ?_, Nat.le_of_eq hlast.symm, ?_⟩
  · rw [hleft, hlast]
    omega
  · rw [htimeout, hleft]
    simpa using hbudget

/-- A call of `fix_coroutine_timeout` keeps the account when the cached time has not gone
back since the last refresh and the difference fits in an `int`. -/
theorem fix (h : task.Accounts attr cached) (hbudget : 0 < attr.maxTimeoutMs)
    (hle : task.last ≤ now) (hspan : now < task.last + 2 ^ 31) (timeout : Int) :
    (fixCoroutineTimeout task now timeout).1.Accounts attr cached ∧
      (fixCoroutineTimeout task now timeout).2.2 =
        (fixCoroutineTimeout task now timeout).1.timeout ∧
      (task.timeout = false → (fixCoroutineTimeout task now timeout).1.last = now) := by
  obtain ⟨hattr, hleft, hcached, hmarked⟩ := h
  have hlimit : task.attr.maxTimeoutMs ≠ -1 := by
    rw [hattr]
    omega
  unfold fixCoroutineTimeout
  rw [if_neg hlimit]
  split
  · next hflag => exact ⟨⟨hattr, hleft, hcached, hmarked⟩, hflag.symm, by simp [hflag]⟩
  · next hflag =>
      have hpositive : 0 < task.leftmsec := by
        by_contra hneg
        exact hflag (hmarked.mpr (by omega))
      have hint := attr.maxTimeoutMs_int
      -- Neither the difference nor what is left is cut off.
      have hdiff : toInt32 ((now : Int) - task.last) = now - task.last :=
        toInt32_of_range (by omega) (by omega)
      have hnew : toInt32 (task.leftmsec - ((now : Int) - task.last)) =
          attr.maxTimeoutMs - ((now : Int) - cached) := by
        rw [toInt32_of_range (by omega) (by omega)]
        omega
      dsimp only
      rw [hdiff, hnew]
      split
      · next hexpired => exact ⟨⟨hattr, rfl, Nat.le_trans hcached hle, by simpa using hexpired⟩,
          rfl, fun _ => rfl⟩
      · next hexpired =>
          refine ⟨⟨hattr, rfl, Nat.le_trans hcached hle, ?_⟩, ?_, fun _ => rfl⟩
          · simpa [hflag] using hexpired
          · simpa using hflag

end Task.Accounts

/-- An account is kept by any number of calls. -/
theorem FixChain.accounts {attr : TaskAttr} {cached : Nat} {start final : Task}
    {fixes : List Fix} (h : FixChain start fixes final) (hstart : start.Accounts attr cached)
    (hbudget : 0 < attr.maxTimeoutMs)
    (hspan : ∀ x ∈ fixes, x.before.last ≤ x.now ∧ x.now < x.before.last + 2 ^ 31) :
    final.Accounts attr cached := by
  induction fixes generalizing start with
  | nil =>
      obtain rfl : start = final := h
      exact hstart
  | cons x rest ih =>
      obtain ⟨rfl, ⟨timeout, hafter, -⟩, hrest⟩ := h
      obtain ⟨hle, hlt⟩ := hspan x List.mem_cons_self
      apply ih hrest
      · rw [← hafter]
        exact (hstart.fix hbudget hle hlt timeout).1
      · exact fun y hy => hspan y (List.mem_cons_of_mem x hy)

section Executions

variable {ok : Sys → Act → Prop} {tick : Nat} {size : Int} {s : Sys}
  {before os after : List Obs} {t : TaskId} {attr : TaskAttr} {cached now : Nat}
  {task task' : Task} {istimeout : Bool}

/-- A call of `fix_coroutine_timeout` during an execution: it finds the task as the calls
before it have left it, and a cached time that was read since the creation or is still
the one of the creation, and that is not behind the last refresh. -/
theorem Sys.Reached.fixing (h : Sys.Reached ok tick size s)
    (hclock : (clocksOf s.trace).Pairwise (· ≤ ·))
    (htrace : s.trace = before ++ .created t attr cached ::
      (os ++ .fixed t now task task' istimeout :: after))
    (hfreed : .freed t ∉ os) :
    (∃ start, start.Submitted attr cached ∧ FixChain start (fixesOf t os) task) ∧
      (now = cached ∨ .clock now ∈ os) ∧ task.last ≤ now ∧
      ∃ timeout, task' = (fixCoroutineTimeout task now timeout).1 ∧
        istimeout = (fixCoroutineTimeout task now timeout).2.2 := by
  obtain ⟨u, a, v, mid, os₁, os₂, hu, htr, hlog, hmid, rfl, hon⟩ :=
    h.during htrace hfreed rfl rfl
  obtain ⟨hoff, rfl, rfl, call, rfl, rfl⟩ := htr.fixed_cases hu.inv hon.phase_ne_none hlog
  refine ⟨?_, ?_, ?_, call.timeout, rfl, rfl⟩
  · rw [fixesOf_append, fixesOf_of_off hoff, List.append_nil]
    exact hon.chain
  · exact (hu.now_since hmid).imp_right (List.mem_append_left os₁)
  · have hpref : u.trace <+: s.trace := by
      rw [htrace, hmid]
      simp only [List.append_assoc]
      exact (List.prefix_append_right_inj before).mpr (by simp)
    exact hu.last_le_now (hclock.sublist (hpref.sublist.filterMap _)) t

/-- The account of a task is faithful to the cached time when the differences between two
refreshes fit in an `int`. It is faithful to the clock when moreover the cached time was up to
date at its creation. -/
theorem deadline_faithful (h : Sys.Reached always tick size s)
    (hclock : (clocksOf s.trace).Pairwise (· ≤ ·))
    (htrace : s.trace = before ++ .created t attr cached ::
      (os ++ .fixed t now task task' istimeout :: after))
    (hfreed : .freed t ∉ os) (hbudget : 0 < attr.maxTimeoutMs)
    (hspan : ∀ x ∈ fixesOf t os, x.now < x.before.last + 2 ^ 31)
    (hspan' : now < task.last + 2 ^ 31) :
    (cached = lastClock before → istimeout = true → ∃ reading : Nat, .clock reading ∈ os ∧
      (lastClock before : Int) + attr.maxTimeoutMs ≤ reading) ∧
    ((cached : Int) + attr.maxTimeoutMs ≤ now → istimeout = true) ∧
    task'.timeout = istimeout ∧
    task'.leftmsec = attr.maxTimeoutMs - ((task'.last : Int) - cached) ∧
    (task.timeout = false → task'.last = now) := by
  obtain ⟨⟨start, hsubmitted, hchain⟩, hread, hle, timeout, rfl, rfl⟩ :=
    h.fixing hclock htrace hfreed
  have hspans : ∀ x ∈ fixesOf t os, x.before.last ≤ x.now ∧
      x.now < x.before.last + 2 ^ 31 := by
    intro x hx
    refine ⟨?_, hspan x hx⟩
    obtain ⟨os₁, os₂, rfl⟩ := List.append_of_mem (mem_of_mem_fixesOf hx)
    rw [List.append_assoc, List.cons_append] at htrace
    exact (h.fixing hclock htrace fun hmem => hfreed (List.mem_append_left _ hmem)).2.2.1
  have haccounts := hchain.accounts (.of_submitted hsubmitted hbudget) hbudget hspans
  obtain ⟨hafter, hflag, hlast⟩ := haccounts.fix hbudget hle hspan' timeout
  have hexpired : (fixCoroutineTimeout task now timeout).2.2 = true ↔
      (cached : Int) + attr.maxTimeoutMs ≤
        (fixCoroutineTimeout task now timeout).1.last := by
    rw [hflag, hafter.marked, hafter.left]
    omega
  refine ⟨?_, ?_, hflag.symm, hafter.left, hlast⟩
  · intro hfresh hflagged
    have hpassed := hexpired.mp hflagged
    have hrefreshed : (fixCoroutineTimeout task now timeout).1.last ≤ now := by
      rcases fixCoroutineTimeout_last task now timeout with heq | heq
      · exact heq ▸ hle
      · exact Nat.le_of_eq heq
    rcases hread with hsame | hread
    · omega
    · exact ⟨now, hread, by omega⟩
  · intro hpassed
    cases hmarked : task.timeout with
    | false => exact hexpired.mpr (by rwa [hlast hmarked])
    | true =>
        rw [hflag]
        exact (fixCoroutineTimeout_flag task now timeout).2.mpr (Or.inl hmarked)

end Executions

/-- The first task of a pool after its submission with a deadline. -/
def lateTask (cached : Nat) : Task := (Sys.freshTask 0 none).submit lateAttr cached

/-- The same task after it was marked at `now` with `leftmsec` left. -/
def lateTaskMarked (cached now : Nat) (leftmsec : Int) : Task :=
  { lateTask cached with timeout := true, leftmsec := leftmsec, last := now }

/-- A task of 5 ms that was created by another one while the event loop runs. It polls at
1000, again at 1006, and the second call marks it. -/
theorem deadline_faithful_nested :
    ∃ s before os after task task', Sys.Reached always 1000 2 s ∧
      s.trace = before ++ .created 0 lateAttr 1000 ::
        (os ++ .fixed 0 1006 task task' true :: after) ∧
      (∃ reading : Nat, .clock reading ∈ os ∧ (lastClock before : Int) + 5 ≤ reading) ∧
      task'.leftmsec = -1 := by
  let created : Obs := .created 0 lateAttr 1000
  let fixed : Obs := .fixed 0 1006 (lateTask 1000) (lateTaskMarked 1000 1006 (-1)) true
  let os (s : Sys) : List Obs := entriesBefore fixed (entriesAfter created s.trace)
  obtain ⟨s, hs, hp⟩ := exec_reached_of 1000 2
    [.newTask plainAttr, .poll (plainPoll 5 0 1000), .eventloop 1000, .iterate [] 1000,
      .drain, .newTask lateAttr, .poll (plainPoll 6 10 1000), .ret, .drain,
      .iterate [] 1006, .drain, .poll (plainPoll 5 0 1006)]
    (fun s => decide (created ∈ s.trace) && decide (fixed ∈ entriesAfter created s.trace) &&
      decide (.freed 0 ∉ os s) && decide ((clocksOf s.trace).Pairwise (· ≤ ·)) &&
      decide (1000 = lastClock (entriesBefore created s.trace)) &&
      decide (∀ x ∈ fixesOf 0 (os s), x.now < x.before.last + 2 ^ 31)) (by decide +kernel)
  simp only [Bool.and_eq_true, decide_eq_true_eq] at hp
  obtain ⟨⟨⟨⟨⟨hcreated, hfixed⟩, hfreed⟩, hclock⟩, hfresh⟩, hspan⟩ := hp
  have htrace := split_at_mem hcreated
  rw [split_at_mem hfixed] at htrace
  have hdeadline := deadline_faithful hs hclock htrace hfreed (by decide) hspan (by decide)
  exact ⟨s, _, _, _, _, _, hs, htrace, hdeadline.1 hfresh rfl, hdeadline.2.2.2.1⟩

/-- A task of 5 ms that was created before the event loop, at the cached time 0, is marked
although the clock has not moved since. -/
theorem deadline_marked_early :
    ∃ s before os after task task', Sys.Reached always 1000 1 s ∧
      (clocksOf s.trace).Pairwise (· ≤ ·) ∧
      s.trace = before ++ .created 0 lateAttr 0 ::
        (os ++ .fixed 0 1000 task task' true :: after) ∧
      .freed 0 ∉ os ∧ lastClock before = 1000 ∧
      ∀ reading, .clock reading ∈ os → reading = 1000 := by
  let created : Obs := .created 0 lateAttr 0
  let fixed : Obs := .fixed 0 1000 (lateTask 0) (lateTaskMarked 0 1000 (-995)) true
  let os (s : Sys) : List Obs := entriesBefore fixed (entriesAfter created s.trace)
  obtain ⟨s, hs, hp⟩ := exec_reached_of 1000 1
    [.newTask lateAttr, .poll (plainPoll 5 0 1000), .eventloop 1000, .iterate [] 1000,
      .drain, .poll (plainPoll 5 0 1000)]
    (fun s => decide (created ∈ s.trace) && decide (fixed ∈ entriesAfter created s.trace) &&
      decide (.freed 0 ∉ os s) && decide ((clocksOf s.trace).Pairwise (· ≤ ·)) &&
      decide (lastClock (entriesBefore created s.trace) = 1000) &&
      decide (∀ reading ∈ clocksOf (os s), reading = 1000)) (by decide +kernel)
  simp only [Bool.and_eq_true, decide_eq_true_eq] at hp
  obtain ⟨⟨⟨⟨⟨hcreated, hfixed⟩, hfreed⟩, hclock⟩, hlast⟩, hread⟩ := hp
  have htrace := split_at_mem hcreated
  rw [split_at_mem hfixed] at htrace
  exact ⟨s, _, _, _, _, _, hs, hclock, htrace, hfreed, hlast,
    fun reading hmem => hread reading (mem_clocksOf hmem)⟩

end Libcr
