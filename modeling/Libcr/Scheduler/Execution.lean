import Libcr.Scheduler.Trace

/-!
# The execution of one task

An execution of a task is what happens from `new_task` taking it off the free
list to `task_main` putting it back. `TaskStep` projects a step of the thread to
one task that is executing; `Ongoing` says what is known about an execution at
any point of it, in terms of what the trace has recorded since its beginning.
-/

namespace Libcr

/-- The user code of its own that a coroutine is executing or has called out of. -/
def Pc.phase : Pc → Option Phase
  | .user ph | .newTask ph | .polling ph _ => some ph
  | _ => none

@[simp] theorem Pc.phase_landed (p : Pc) : p.landed.phase = p.phase := by
  cases p <;> rfl

/-- The task an entry of the trace is about. -/
def Obs.ofTask : Obs → Option TaskId
  | .created t _ _ | .called t _ _ | .fixed t _ _ _ _ | .freed t => some t
  | _ => none

/-- The calls of user functions that were made for a task. -/
def callsOf (t : TaskId) (os : List Obs) : List (Fun × Arg) :=
  os.filterMap fun
    | .called u f a => if u = t then some (f, a) else none
    | _ => none

/-- A call of `fix_coroutine_timeout`: the cached time, the task before and after
it, and the answer. -/
structure Fix where
  now : Nat
  before : Task
  after : Task
  istimeout : Bool

/-- The calls of `fix_coroutine_timeout` that were made for a task. -/
def fixesOf (t : TaskId) (os : List Obs) : List Fix :=
  os.filterMap fun
    | .fixed u now before after istimeout =>
        if u = t then some ⟨now, before, after, istimeout⟩ else none
    | _ => none

section Projections

variable {t : TaskId} {os os' : List Obs}

@[simp] theorem callsOf_append : callsOf t (os ++ os') = callsOf t os ++ callsOf t os' := by
  simp [callsOf]

@[simp] theorem fixesOf_append : fixesOf t (os ++ os') = fixesOf t os ++ fixesOf t os' := by
  simp [fixesOf]

theorem callsOf_of_off (h : ∀ o ∈ os, o.ofTask ≠ some t) : callsOf t os = [] := by
  rw [callsOf, List.filterMap_eq_nil_iff]
  intro o ho
  have hoff := h o ho
  cases o <;> simp_all [Obs.ofTask]

theorem fixesOf_of_off (h : ∀ o ∈ os, o.ofTask ≠ some t) : fixesOf t os = [] := by
  rw [fixesOf, List.filterMap_eq_nil_iff]
  intro o ho
  have hoff := h o ho
  cases o <;> simp_all [Obs.ofTask]

theorem mem_of_mem_fixesOf {x : Fix} (h : x ∈ fixesOf t os) :
    .fixed t x.now x.before x.after x.istimeout ∈ os := by
  obtain ⟨o, ho, heq⟩ := List.mem_filterMap.mp h
  cases o with
  | fixed u now before after istimeout =>
      simp only [Option.ite_none_right_eq_some, Option.some.injEq] at heq
      obtain ⟨rfl, rfl⟩ := heq
      exact ho
  | _ => simp at heq

theorem ofTask_register {s : Sys} {call : PollCall} {o : Obs}
    (ho : o ∈ (s.register call).2.1) : o.ofTask = none := by
  obtain ⟨k, fd, rfl, -⟩ := mem_addEpoll_obs ho
  rfl

theorem ofTask_delEpoll {f : FrameId} {fds : List PollFd} {set : Fd → Option Registration}
    {o : Obs} (ho : o ∈ (delEpoll f fds set).2) : o.ofTask = none := by
  obtain ⟨fd, r, rfl, -⟩ := mem_delEpoll_obs.mp ho
  rfl

end Projections

/-- A step of the thread that records `os`, seen from a task that is executing. -/
inductive TaskStep (t : TaskId) (s s' : Sys) : List Obs → Prop
  /-- The step is about something else. -/
  | idle {os : List Obs} (htask : s'.tasks t = s.tasks t)
      (hphase : (s'.pc (.worker t)).phase = (s.pc (.worker t)).phase)
      (hoff : ∀ o ∈ os, o.ofTask ≠ some t) : TaskStep t s s' os
  /-- The task calls `poll_inner`. -/
  | fix {call : PollCall} {os₁ os₂ : List Obs} (htask : s'.tasks t = (s.fix t call).1)
      (hphase : (s'.pc (.worker t)).phase = (s.pc (.worker t)).phase)
      (hoff₁ : ∀ o ∈ os₁, o.ofTask ≠ some t) (hoff₂ : ∀ o ∈ os₂, o.ofTask ≠ some t) :
      TaskStep t s s' (os₁ ++
        .fixed t s.now (s.tasks t) (s.fix t call).1 (s.fix t call).2.2 :: os₂)
  /-- The function of the task has returned and its timeout callback is called. -/
  | callback (htask : s'.tasks t = s.tasks t)
      (hfn : (s.pc (.worker t)).phase = some .fn)
      (hcallback : (s'.pc (.worker t)).phase = some .callback)
      (htimeout : (s.tasks t).timeout = true) (hnull : (s.tasks t).attr.timeout ≠ .null) :
      TaskStep t s s' [.called t (s.tasks t).attr.timeout (.task t)]
  /-- The task goes back to the free list. -/
  | free {os : List Obs}
      (hphase : (s.pc (.worker t)).phase = some .fn ∧
          ¬ ((s.tasks t).timeout = true ∧ (s.tasks t).attr.timeout ≠ .null) ∨
        (s.pc (.worker t)).phase = some .callback)
      (hoff : ∀ o ∈ os, o.ofTask ≠ some t) : TaskStep t s s' (.freed t :: os)

/-- Moving a coroutine within its phase does not change the phase of any. -/
theorem phase_update {pcs : CoId → Pc} {c : CoId} {p : Pc} (h : p.phase = (pcs c).phase)
    (d : CoId) : (Function.update pcs c p d).phase = (pcs d).phase := by
  by_cases hd : d = c
  · rw [hd, Function.update_self, h]
  · rw [Function.update_of_ne hd]

section Steps

variable {n : Nat} {s s' : Sys} {t : TaskId}

/-- A `poll_inner` call of the task `u`, up to where it goes on or sleeps. -/
theorem taskStep_poll {u : TaskId} {call : PollCall} {os : List Obs}
    (htasks : s'.tasks = Function.update s.tasks u (s.fix u call).1)
    (hphase : (s'.pc (.worker t)).phase = (s.pc (.worker t)).phase)
    (hoff : ∀ o ∈ os, o.ofTask = none) :
    TaskStep t s s' (.index ((s.callstack.length : Int) - 1) ::
      .fixed u s.now (s.tasks u) (s.fix u call).1 (s.fix u call).2.2 :: os) := by
  by_cases hu : u = t
  · subst hu
    change TaskStep u s s' ([.index ((s.callstack.length : Int) - 1)] ++ _ :: os)
    refine .fix (by rw [htasks, Function.update_self]) hphase (by simp [Obs.ofTask]) ?_
    intro o ho
    simp [hoff o ho]
  · refine .idle (by rw [htasks, Function.update_of_ne (Ne.symm hu)]) hphase ?_
    intro o ho
    simp only [List.mem_cons] at ho
    rcases ho with rfl | rfl | ho
    · simp [Obs.ofTask]
    · simpa [Obs.ofTask] using hu
    · simp [hoff o ho]

/-- Every step is one of these for a task that is executing. -/
theorem Transition.taskStep {a : Act} (htr : Transition n s a s') (h : Inv n s)
    (hexec : (s.pc (.worker t)).phase ≠ none) :
    ∃ os, s'.trace = s.trace ++ os ∧ TaskStep t s s' os := by
  cases htr with
  | full => exact ⟨[], by simp, .idle rfl rfl (by simp)⟩
  | @drained hcurr hpc =>
      refine ⟨[], by simp [Sys.setPc, Sys.setCo], .idle rfl ?_ (by simp)⟩
      rw [Sys.pc_setPc, Function.update_of_ne (by simp)]
  | @spawn c ph attr u hcurr hpc hu hfree =>
      have hwait := (h.pool.of_free hfree).2
      have hut : u ≠ t := by
        rintro rfl
        rw [hwait] at hexec
        simp [Pc.phase] at hexec
      refine ⟨_, rfl, .idle ?_ ?_ ?_⟩
      · simp [Sys.spawned, Function.update_of_ne (Ne.symm hut)]
      · rw [Sys.pc_spawned, Function.update_of_ne (by simpa using Ne.symm hut)]
        exact phase_update (by rw [hpc]; rfl) _
      · intro o ho
        simp only [List.mem_cons, List.not_mem_nil, or_false] at ho
        rcases ho with rfl | rfl | rfl | rfl <;> simp [Obs.ofTask, hut]
  | expired | fallback =>
      simp only [Sys.emit, Sys.fixed, List.append_assoc, List.cons_append, List.nil_append]
      exact ⟨_, rfl, taskStep_poll rfl rfl (by simp [Obs.ofTask])⟩
  | reject =>
      simp only [Sys.rejected, Sys.fixed, List.append_assoc, List.cons_append, List.nil_append]
      refine ⟨_, rfl, taskStep_poll rfl rfl ?_⟩
      intro o ho
      simp only [List.mem_append, List.mem_cons, List.not_mem_nil, or_false] at ho
      rcases ho with ho | rfl | ho | rfl
      · exact ofTask_register ho
      · rfl
      · exact ofTask_delEpoll ho
      · rfl
  | @suspend ph u call last hu hcurr hpc hlast =>
      obtain ⟨last', hlast', hne⟩ := h.exists_last hcurr
      obtain rfl := Option.some.inj (hlast.symm.trans hlast')
      simp only [Sys.suspended, Sys.fixed, List.append_assoc, List.cons_append,
        List.nil_append]
      refine ⟨_, rfl, taskStep_poll rfl ?_ ?_⟩
      · change ((s.suspended last ph u call).pc (.worker t)).phase = _
        rw [Sys.pc_suspended, phase_update, phase_update]
        · rw [hpc]
          rfl
        · rw [Function.update_of_ne hne, Pc.phase_landed]
      · intro o ho
        simp only [List.mem_append, List.mem_cons, List.not_mem_nil, or_false] at ho
        rcases ho with ho | rfl | rfl | rfl | rfl | rfl
        · exact ofTask_register ho
        all_goals rfl
  | @callback u hu hcurr hpc htimeout hnull =>
      by_cases hut : u = t
      · subst hut
        refine ⟨_, rfl, .callback rfl (by rw [hpc]; rfl) ?_ htimeout hnull⟩
        rw [Sys.pc_callingBack, Function.update_self]
        rfl
      · refine ⟨_, rfl, .idle rfl ?_ (by simpa [Obs.ofTask] using hut)⟩
        rw [Sys.pc_callingBack, Function.update_of_ne (by simpa using Ne.symm hut)]
  | @finish u ph last hu hcurr hpc hlast hph =>
      obtain ⟨last', hlast', hne⟩ := h.exists_last hcurr
      obtain rfl := Option.some.inj (hlast.symm.trans hlast')
      by_cases hut : u = t
      · subst hut
        refine ⟨_, rfl, .free ?_ (by simp [Obs.ofTask])⟩
        rw [hpc]
        rcases hph with ⟨rfl, hno⟩ | rfl
        · exact Or.inl ⟨rfl, hno⟩
        · exact Or.inr rfl
      · refine ⟨_, rfl, .idle ?_ ?_ ?_⟩
        · simp [Sys.finished, Function.update_of_ne (Ne.symm hut)]
        · rw [Sys.pc_finished, phase_update,
            Function.update_of_ne (by simpa using Ne.symm hut)]
          rw [Function.update_of_ne hne, Pc.phase_landed]
        · simpa [Obs.ofTask] using hut
  | close | self => exact ⟨_, rfl, .idle rfl rfl (by simp [Obs.ofTask])⟩
  | @eventloop tick hcurr hpc =>
      refine ⟨[.clock tick], rfl, .idle rfl ?_ (by simp [Obs.ofTask])⟩
      have hpcs : (s.enterEventloop tick).pc = Function.update s.pc .main .loopHead :=
        Sys.pc_setPc ..
      rw [hpcs, Function.update_of_ne (by simp)]
  | @iterate events tick hcurr hpc hset =>
      obtain ⟨seg, htrace, hobs, -⟩ := h.iterate_trace hpc hset tick
      refine ⟨_, htrace, .idle ?_ ?_ ?_⟩
      · rw [h.iterate_rest hpc hset]
        rfl
      · rw [h.iterate_rest hpc hset]
        change ((s.setPc .main .draining).pc (.worker t)).phase = _
        rw [Sys.pc_setPc, Function.update_of_ne (by simp)]
      · intro o ho
        simp only [List.mem_append, List.mem_singleton, List.mem_map] at ho
        rcases ho with ((rfl | ho) | rfl) | ⟨f, -, rfl⟩
        · simp [Obs.ofTask]
        · obtain ⟨f, -, rfl | rfl⟩ := hobs o ho <;> simp [Obs.ofTask]
        · simp [Obs.ofTask]
        · simp [Obs.ofTask]
  | @wake f _ fr u ph hcurr hpc hactive hframe hu hco hpoll =>
      refine ⟨_, rfl, .idle rfl ?_ ?_⟩
      · rw [Sys.pc_woken]
        exact phase_update (by rw [hpoll]; rfl) _
      · intro o ho
        simp only [List.mem_append, List.mem_cons, List.not_mem_nil, or_false] at ho
        rcases ho with (rfl | rfl | rfl) | ho | rfl
        · simp [Obs.ofTask]
        · simp [Obs.ofTask]
        · simp [Obs.ofTask]
        · simp [ofTask_delEpoll ho]
        · simp [Obs.ofTask]

end Steps

/-- The entry describes a call of `fix_coroutine_timeout`. -/
def Fix.Valid (x : Fix) : Prop :=
  ∃ timeout, (fixCoroutineTimeout x.before x.now timeout).1 = x.after ∧
    (fixCoroutineTimeout x.before x.now timeout).2.2 = x.istimeout

/-- Each of the calls finds the task as the one before has left it. -/
def FixChain : Task → List Fix → Task → Prop
  | start, [], final => start = final
  | start, x :: rest, final => x.before = start ∧ x.Valid ∧ FixChain x.after rest final

namespace FixChain

variable {start final : Task} {fixes : List Fix}

theorem snoc (h : FixChain start fixes final) {x : Fix} (hx : x.before = final)
    (hvalid : x.Valid) : FixChain start (fixes ++ [x]) x.after := by
  induction fixes generalizing start with
  | nil =>
      obtain rfl : start = final := h
      exact ⟨hx, hvalid, rfl⟩
  | cons y rest ih => exact ⟨h.1, h.2.1, ih h.2.2⟩

/-- The calls leave the attributes of the task alone and record in its flag whether
one of them has found the deadline expired. -/
theorem spec (h : FixChain start fixes final) :
    final.attr = start.attr ∧
      (final.timeout = true ↔ start.timeout = true ∨ ∃ x ∈ fixes, x.istimeout = true) := by
  induction fixes generalizing start with
  | nil =>
      obtain rfl : start = final := h
      simp
  | cons x rest ih =>
      obtain ⟨hx, ⟨timeout, hafter, hflag⟩, hrest⟩ := h
      obtain ⟨hattr, htimeout⟩ := ih hrest
      obtain ⟨hattr', hflag'⟩ := fixCoroutineTimeout_flag x.before x.now timeout
      rw [hafter] at hattr' hflag'
      rw [hflag] at hflag'
      subst hx
      refine ⟨hattr.trans hattr', ?_⟩
      rw [htimeout, hflag']
      simp [or_assoc]

end FixChain

/-- A task as `new_task` has filled it in. -/
def Task.Submitted (task : Task) (attr : TaskAttr) (cached : Nat) : Prop :=
  task.attr = attr ∧ task.leftmsec = attr.maxTimeoutMs ∧ task.timeout = false ∧
    task.last = cached

/-- An execution of the task `t` that was created with `attr` at the cached time
`cached` and has not ended; `os` is what was recorded since. -/
structure Ongoing (t : TaskId) (attr : TaskAttr) (cached : Nat) (os : List Obs)
    (s : Sys) : Prop where
  chain : ∃ task : Task, task.Submitted attr cached ∧
    FixChain task (fixesOf t os) (s.tasks t)
  calls : (s.pc (.worker t)).phase = some .fn ∧ callsOf t os = [(attr.fn, attr.arg)] ∨
    (s.pc (.worker t)).phase = some .callback ∧
      callsOf t os = [(attr.fn, attr.arg), (attr.timeout, .task t)] ∧
      (s.tasks t).timeout = true ∧ attr.timeout ≠ .null

namespace Ongoing

variable {t : TaskId} {attr : TaskAttr} {cached : Nat} {os os' : List Obs} {s s' : Sys}

theorem phase_ne_none (h : Ongoing t attr cached os s) :
    (s.pc (.worker t)).phase ≠ none := by
  rcases h.calls with ⟨hph, -⟩ | ⟨hph, -⟩ <;> simp [hph]

theorem attr_eq (h : Ongoing t attr cached os s) : (s.tasks t).attr = attr := by
  obtain ⟨task, hsub, hchain⟩ := h.chain
  exact hchain.spec.1.trans hsub.1

/-- The flag of the task says whether its deadline was found expired during the
execution. -/
theorem timeout_iff (h : Ongoing t attr cached os s) :
    (s.tasks t).timeout = true ↔ ∃ x ∈ fixesOf t os, x.istimeout = true := by
  obtain ⟨task, hsub, hchain⟩ := h.chain
  rw [hchain.spec.2, hsub.2.2.1]
  simp

/-- An execution goes on until the task is freed. -/
theorem step (h : Ongoing t attr cached os s) (hstep : TaskStep t s s' os')
    (hfreed : .freed t ∉ os') : Ongoing t attr cached (os ++ os') s' := by
  obtain ⟨task, hsub, hchain⟩ := h.chain
  cases hstep with
  | idle htask hphase hoff =>
      refine ⟨⟨task, hsub, ?_⟩, ?_⟩
      · rw [fixesOf_append, fixesOf_of_off hoff, List.append_nil, htask]
        exact hchain
      · rw [callsOf_append, callsOf_of_off hoff, List.append_nil, hphase, htask]
        exact h.calls
  | @fix call os₁ os₂ htask hphase hoff₁ hoff₂ =>
      refine ⟨⟨task, hsub, ?_⟩, ?_⟩
      · have hfix : fixesOf t (.fixed t s.now (s.tasks t) (s.fix t call).1
            (s.fix t call).2.2 :: os₂) =
            [⟨s.now, s.tasks t, (s.fix t call).1, (s.fix t call).2.2⟩] := by
          rw [← List.singleton_append, fixesOf_append, fixesOf_of_off hoff₂]
          simp [fixesOf]
        rw [fixesOf_append, fixesOf_append, fixesOf_of_off hoff₁, hfix, List.nil_append,
          htask]
        exact hchain.snoc rfl ⟨call.timeout, rfl, rfl⟩
      · have hcalls : callsOf t (.fixed t s.now (s.tasks t) (s.fix t call).1
            (s.fix t call).2.2 :: os₂) = [] := by
          rw [← List.singleton_append, callsOf_append, callsOf_of_off hoff₂]
          simp [callsOf]
        rw [callsOf_append, callsOf_append, callsOf_of_off hoff₁, hcalls, List.nil_append,
          List.append_nil, hphase, htask]
        refine h.calls.imp_right ?_
        rintro ⟨hph, heq, htimeout, hnull⟩
        exact ⟨hph, heq, (fixCoroutineTimeout_flag ..).2.mpr (Or.inl htimeout), hnull⟩
  | callback htask hfn hcallback htimeout hnull =>
      rw [h.attr_eq] at hnull ⊢
      refine ⟨⟨task, hsub, ?_⟩, Or.inr ⟨hcallback, ?_, htask ▸ htimeout, hnull⟩⟩
      · rw [htask]
        simpa [fixesOf] using hchain
      · rcases h.calls with ⟨-, hcalls⟩ | ⟨hph, -⟩
        · rw [callsOf_append, hcalls]
          simp [callsOf]
        · rw [hfn] at hph
          simp at hph
  | free => simp at hfreed

end Ongoing

/-- Only a successful `new_task` creates an execution. -/
theorem Transition.created_cases {n : Nat} {s s' : Sys} {a : Act}
    (htr : Transition n s a s') (h : Inv n s) {os₁ os₂ : List Obs} {t : TaskId}
    {attr : TaskAttr} {cached : Nat}
    (htrace : s'.trace = s.trace ++ (os₁ ++ .created t attr cached :: os₂)) :
    a = .newTask attr ∧ cached = s.now ∧ os₁ = [] ∧ ∃ c ph, s' = s.spawned c ph t attr ∧
      os₂ = [.index ((s.callstack.length : Int) - 1), .index s.callstack.length,
        .called t attr.fn attr.arg] := by
  obtain ⟨os, hos, hrec⟩ := htr.records h
  have heq : os = os₁ ++ .created t attr cached :: os₂ := by
    rw [hos] at htrace
    exact List.append_cancel_left htrace
  have hcreated := hrec (.created t attr cached) (by simp [heq])
  cases htr with
  | full =>
      have := congrArg List.length htrace
      simp at this
  | @spawn c ph attr' u hcurr hpc hu hfree =>
      have hlist := List.append_cancel_left htrace
      cases os₁ with
      | nil =>
          simp only [List.nil_append, List.cons.injEq, Obs.created.injEq] at hlist
          obtain ⟨⟨rfl, rfl, rfl⟩, rfl⟩ := hlist
          exact ⟨rfl, rfl, rfl, c, ph, rfl, rfl⟩
      | cons o rest =>
          rw [List.cons_append, List.cons.injEq] at hlist
          have hmem : .created t attr cached ∈ rest ++ .created t attr cached :: os₂ := by
            simp
          rw [← hlist.2] at hmem
          simp at hmem
  | _ => simp [Act.records] at hcreated

/-- The execution that `new_task` has just started. -/
theorem ongoing_spawned {s : Sys} {c : CoId} {ph : Phase} {t : TaskId} {attr : TaskAttr}
    {i j : Int} :
    Ongoing t attr s.now [.index i, .index j, .called t attr.fn attr.arg]
      (s.spawned c ph t attr) := by
  refine ⟨⟨(s.tasks t).submit attr s.now, ⟨rfl, rfl, rfl, rfl⟩, ?_⟩, Or.inl ⟨?_, ?_⟩⟩
  · simp [fixesOf, Sys.spawned, FixChain]
  · rw [Sys.pc_spawned, Function.update_self]
    rfl
  · simp [callsOf]

/-- In a reached state, whatever was created and not freed since is an ongoing
execution. -/
theorem Sys.Reached.ongoing {ok : Sys → Act → Prop} {tick : Nat} {size : Int} {s : Sys}
    (h : Sys.Reached ok tick size s) {before os : List Obs} {t : TaskId} {attr : TaskAttr}
    {cached : Nat} (htrace : s.trace = before ++ .created t attr cached :: os)
    (hfreed : .freed t ∉ os) : Ongoing t attr cached os s := by
  revert before os t attr cached
  refine h.induction (P := fun s => ∀ {before os t attr cached},
    s.trace = before ++ .created t attr cached :: os → .freed t ∉ os →
      Ongoing t attr cached os s) ?_ ?_
  · intro before os t attr cached htrace
    have hmem : .created t attr cached ∈ (Sys.init tick size).trace := by simp [htrace]
    exact absurd (init_trace hmem) (by simp [Obs.ofCreation])
  · intro u a v _ hinv _ htr hP before os t attr cached htrace hfreed
    obtain ⟨new, hnew, -⟩ := htr.records hinv
    rw [hnew] at htrace
    rcases split_append htrace with ⟨mid, hold, rfl⟩ | ⟨os₁, -, rfl⟩
    · rw [List.mem_append, not_or] at hfreed
      have hon := hP hold hfreed.1
      obtain ⟨new', hnew', hstep⟩ := htr.taskStep hinv hon.phase_ne_none
      obtain rfl := List.append_cancel_left (hnew.symm.trans hnew')
      exact hon.step hstep hfreed.2
    · obtain ⟨-, rfl, -, c, ph, rfl, rfl⟩ := htr.created_cases hinv hnew
      exact ongoing_spawned

/-- What is recorded during an execution, other than by its creation, is recorded by a
step from a state in which the execution is ongoing. -/
theorem Sys.Reached.during {ok : Sys → Act → Prop} {tick : Nat} {size : Int} {s : Sys}
    (h : Sys.Reached ok tick size s) {before os after : List Obs} {t : TaskId}
    {attr : TaskAttr} {cached : Nat} {o : Obs}
    (htrace : s.trace = before ++ .created t attr cached :: (os ++ o :: after))
    (hfreed : .freed t ∉ os) (hsetup : o.ofCreation tick = false)
    (hcreation : (Act.newTask attr).records o = false) :
    ∃ u a v mid os₁ os₂, Sys.Reached ok tick size u ∧ Transition size.toNat u a v ∧
      v.trace = u.trace ++ (os₁ ++ o :: os₂) ∧
      u.trace = before ++ .created t attr cached :: mid ∧ os = mid ++ os₁ ∧
      Ongoing t attr cached mid u := by
  have hsplit : s.trace = (before ++ .created t attr cached :: os) ++ o :: after := by
    rw [htrace, List.append_assoc, List.cons_append]
  obtain ⟨u, a, v, os₁, os₂, later, hu, -, htr, hlog, hbefore, -⟩ := h.emission hsplit hsetup
  rcases split_append hbefore.symm with ⟨mid, hmid, rfl⟩ | ⟨rest, -, hrest⟩
  · have hon := hu.ongoing hmid fun hmem => hfreed (List.mem_append_left _ hmem)
    exact ⟨u, a, v, mid, os₁, os₂, hu, htr, hlog, hmid, rfl, hon⟩
  · obtain ⟨new, hnew, hrec⟩ := htr.records hu.inv
    obtain rfl := List.append_cancel_left (hnew.symm.trans hlog)
    have hmem := hrec o (by simp)
    rw [hrest, List.append_assoc, List.cons_append] at hlog
    obtain ⟨rfl, -⟩ := htr.created_cases hu.inv hlog
    rw [hcreation] at hmem
    simp at hmem

end Libcr
