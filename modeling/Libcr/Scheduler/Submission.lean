import Libcr.Scheduler.Execution

/-!
# Tasks run as they were submitted

Whatever ran before on the same pooled coroutine, an execution calls the submitted
function with the submitted argument, and its deadline starts from the submitted
budget. The timeout callback is called when it should be, but with
`task->coroutine->arg`, which since `create_thread_taskpool` holds the address of
the task and not the argument of the user.
-/

namespace Libcr

/-- What an execution that was created with `attr` at the cached time `cached` should
do: call the function, and after it the callback if the deadline was found expired,
both with the argument of the user; and keep its account of the time from the
submitted budget on, one call of `fix_coroutine_timeout` after the other. -/
def RunsAsSubmitted (t : TaskId) (attr : TaskAttr) (cached : Nat) (os : List Obs) : Prop :=
  callsOf t os = (attr.fn, attr.arg) ::
      (if attr.timeout ≠ .null ∧ (fixesOf t os).any Fix.istimeout = true then
        [(attr.timeout, attr.arg)] else []) ∧
    ∃ task final, task.Submitted attr cached ∧ FixChain task (fixesOf t os) final

/-- A step that frees a task ends an execution of it. -/
theorem Transition.freed_cases {n : Nat} {s s' : Sys} {a : Act}
    (htr : Transition n s a s') (h : Inv n s) {t : TaskId}
    (hexec : (s.pc (.worker t)).phase ≠ none) {os₁ os₂ : List Obs}
    (htrace : s'.trace = s.trace ++ (os₁ ++ .freed t :: os₂)) :
    os₁ = [] ∧ ((s.pc (.worker t)).phase = some .fn ∧
        ¬ ((s.tasks t).timeout = true ∧ (s.tasks t).attr.timeout ≠ .null) ∨
      (s.pc (.worker t)).phase = some .callback) := by
  obtain ⟨os, hos, hstep⟩ := htr.taskStep h hexec
  have heq : os = os₁ ++ .freed t :: os₂ := by
    rw [hos] at htrace
    exact List.append_cancel_left htrace
  have hmem : .freed t ∈ os := by simp [heq]
  cases hstep with
  | idle htask hphase hoff => exact absurd rfl (hoff _ hmem)
  | fix htask hphase hoff₁ hoff₂ =>
      simp only [List.mem_append, List.mem_cons, reduceCtorEq, false_or] at hmem
      rcases hmem with hmem | hmem
      · exact absurd rfl (hoff₁ _ hmem)
      · exact absurd rfl (hoff₂ _ hmem)
  | callback => simp at hmem
  | free hphase hoff =>
      refine ⟨?_, hphase⟩
      cases os₁ with
      | nil => rfl
      | cons o rest =>
          rw [List.cons_append, List.cons.injEq] at heq
          exact absurd rfl (hoff (.freed t) (by simp [heq.2]))

section Executions

variable {ok : Sys → Act → Prop} {tick : Nat} {size : Int} {s : Sys}
  {before os after : List Obs} {t : TaskId} {attr : TaskAttr} {cached : Nat}

/-- At the end of an execution it is still ongoing, and on its way out of
`task_main`. -/
theorem Sys.Reached.ending (h : Sys.Reached ok tick size s)
    (htrace : s.trace = before ++ .created t attr cached :: (os ++ .freed t :: after))
    (hfreed : .freed t ∉ os) :
    ∃ u, Ongoing t attr cached os u ∧ ((u.pc (.worker t)).phase = some .fn ∧
        ¬ ((u.tasks t).timeout = true ∧ (u.tasks t).attr.timeout ≠ .null) ∨
      (u.pc (.worker t)).phase = some .callback) := by
  obtain ⟨u, a, v, mid, os₁, os₂, hu, htr, hlog, hmid, rfl, hon⟩ :=
    h.during htrace hfreed rfl rfl
  obtain ⟨rfl, hphase⟩ := htr.freed_cases hu.inv hon.phase_ne_none hlog
  rw [List.append_nil]
  exact ⟨u, hon, hphase⟩

/-- What an execution has called when it ends. -/
theorem Sys.Reached.execution (h : Sys.Reached ok tick size s)
    (htrace : s.trace = before ++ .created t attr cached :: (os ++ .freed t :: after))
    (hfreed : .freed t ∉ os) :
    callsOf t os = (attr.fn, attr.arg) ::
        (if attr.timeout ≠ .null ∧ (fixesOf t os).any Fix.istimeout = true then
          [(attr.timeout, .task t)] else []) ∧
      ∃ task final, task.Submitted attr cached ∧ FixChain task (fixesOf t os) final := by
  obtain ⟨u, hon, hphase⟩ := h.ending htrace hfreed
  obtain ⟨task, hsub, hchain⟩ := hon.chain
  refine ⟨?_, task, _, hsub, hchain⟩
  simp only [List.any_eq_true, ← hon.timeout_iff]
  rcases hphase with ⟨hfn, hno⟩ | hcallback
  · rw [hon.attr_eq] at hno
    rw [if_neg (fun hboth => hno hboth.symm)]
    rcases hon.calls with ⟨-, hcalls⟩ | ⟨hph, -⟩
    · exact hcalls
    · rw [hfn] at hph
      simp at hph
  · rcases hon.calls with ⟨hph, -⟩ | ⟨-, hcalls, htimeout, hnull⟩
    · rw [hcallback] at hph
      simp at hph
    · rw [if_pos ⟨hnull, htimeout⟩]
      exact hcalls

/-- An execution does what was submitted, unless its callback is called: the callback
then gets the address of the task in place of the argument. -/
theorem task_runs_as_submitted_iff (h : Sys.Reached always tick size s)
    (htrace : s.trace = before ++ .created t attr cached :: (os ++ .freed t :: after))
    (hfreed : .freed t ∉ os) :
    RunsAsSubmitted t attr cached os ↔
      attr.timeout = .null ∨ (fixesOf t os).any Fix.istimeout = false ∨
        attr.arg = .task t := by
  obtain ⟨hcalls, hchain⟩ := h.execution htrace hfreed
  rw [RunsAsSubmitted, and_iff_left hchain, hcalls, List.cons.injEq, and_iff_right rfl]
  by_cases hnull : attr.timeout = .null
  · simp [hnull]
  · cases hexpired : (fixesOf t os).any Fix.istimeout with
    | false => simp
    | true => simpa [hnull] using eq_comm

end Executions

/-- The deadline of a task without a callback is found expired while it polls; the task runs
as submitted. -/
theorem task_runs_as_submitted_expired :
    ∃ s before os after, Sys.Reached always 1000 1 s ∧
      s.trace = before ++ .created 0 { lateAttr with timeout := .null } 0 ::
        (os ++ .freed 0 :: after) ∧
      (fixesOf 0 os).any Fix.istimeout = true ∧
      RunsAsSubmitted 0 { lateAttr with timeout := .null } 0 os := by
  let attr : TaskAttr := { lateAttr with timeout := .null }
  let created : Obs := .created 0 attr 0
  let os (s : Sys) : List Obs := entriesBefore (.freed 0) (entriesAfter created s.trace)
  obtain ⟨s, hs, hp⟩ := exec_reached_of 1000 1
    [.newTask attr, .poll (plainPoll 5 0 1000), .eventloop 1000, .iterate [] 1000, .drain,
      .poll (plainPoll 5 0 1000), .ret]
    (fun s => decide (created ∈ s.trace) && decide (.freed 0 ∈ entriesAfter created s.trace) &&
      decide (.freed 0 ∉ os s) && (fixesOf 0 (os s)).any Fix.istimeout) (by decide +kernel)
  simp only [Bool.and_eq_true, decide_eq_true_eq] at hp
  obtain ⟨⟨⟨hcreated, hend⟩, hfreed⟩, hexpired⟩ := hp
  have htrace := split_at_mem hcreated
  rw [split_at_mem hend] at htrace
  exact ⟨s, _, _, _, hs, htrace, hexpired,
    (task_runs_as_submitted_iff hs htrace hfreed).mpr (Or.inl rfl)⟩

/-- The deadline of a task expires while it polls. Its callback, which was submitted
with the argument 7, is called with the address of the task. -/
theorem task_callback_gets_task :
    ∃ s before os after, Sys.Reached always 1000 1 s ∧
      s.trace = before ++ .created 0 lateAttr 0 :: (os ++ .freed 0 :: after) ∧
      .freed 0 ∉ os ∧ callsOf 0 os = [(.user 1, .user 7), (.user 2, .task 0)] ∧
      ¬ RunsAsSubmitted 0 lateAttr 0 os := by
  let created : Obs := .created 0 lateAttr 0
  let os (s : Sys) : List Obs := entriesBefore (.freed 0) (entriesAfter created s.trace)
  obtain ⟨s, hs, hp⟩ := exec_reached_of 1000 1
    [.newTask lateAttr, .poll (plainPoll 5 0 1000), .eventloop 1000, .iterate [] 1000,
      .drain, .poll (plainPoll 5 0 1000), .ret, .ret]
    (fun s => decide (created ∈ s.trace) && decide (.freed 0 ∈ entriesAfter created s.trace) &&
      decide (.freed 0 ∉ os s) &&
      decide (callsOf 0 (os s) = [(.user 1, .user 7), (.user 2, .task 0)])) (by decide +kernel)
  simp only [Bool.and_eq_true, decide_eq_true_eq] at hp
  obtain ⟨⟨⟨hcreated, hend⟩, hfreed⟩, hcalls⟩ := hp
  have htrace := split_at_mem hcreated
  rw [split_at_mem hend] at htrace
  refine ⟨s, _, _, _, hs, htrace, hfreed, hcalls, ?_⟩
  rintro ⟨hsubmitted, -⟩
  rw [hcalls] at hsubmitted
  split at hsubmitted <;> simp [lateAttr] at hsubmitted

end Libcr
