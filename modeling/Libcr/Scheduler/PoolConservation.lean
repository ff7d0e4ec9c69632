import Libcr.Scheduler.Init

/-!
# Conservation of the task pool

The free list is what a walk along `next` from `pool->free` meets. In every
reached state it holds each task that is not executing once, and `working`
counts the tasks that are. So the two tests of `new_task` for a full pool agree,
and a task that is handed out is one that nobody runs.
-/

namespace Libcr

/-- The places inside the function or the timeout callback of a task, or inside a
call that one of them made. -/
def Pc.inTask : Pc → Bool
  | .user ph | .newTask ph | .polling ph _ => ph ≠ .main
  | _ => false

namespace Sys

/-- The task's function or timeout callback has been called and has not returned. -/
def executing (s : Sys) (t : TaskId) : Bool := (s.pc (.worker t)).inTask

/-- The free list and the executing tasks together are the whole pool. -/
theorem length_free {n : Nat} (s : Sys) {free : List TaskId} (hnodup : free.Nodup)
    (hmem : ∀ t, t ∈ free ↔ t < n ∧ s.executing t = false) :
    free.length + (List.range n).countP s.executing = n := by
  have hperm : free.Perm ((List.range n).filter fun t => !s.executing t) := by
    refine (List.perm_ext_iff_of_nodup hnodup (List.nodup_range.filter _)).mpr ?_
    intro t
    simp [hmem]
  have hsplit := List.length_eq_countP_add_countP s.executing (l := List.range n)
  rw [hperm.length_eq, ← List.countP_eq_length_filter]
  simp only [List.length_range, Bool.not_eq_true, Bool.decide_eq_false] at hsplit
  omega

end Sys

namespace Inv

variable {n : Nat} {s : Sys}

theorem executing_iff (h : Inv n s) {t : TaskId} (ht : t < n) :
    s.executing t = true ↔ s.pc (.worker t) ≠ .waiting := by
  have hfits := h.discipline.worker_fits t ht
  unfold Sys.executing
  cases hpc : s.pc (.worker t) <;> simp_all [Pc.inTask, Pc.ofWorker]

/-- The free list holds the tasks that are not executing, and `working` counts the others. -/
theorem free_tasks (h : Inv n s) :
    ∃ free : List TaskId, Chain (fun t => (s.tasks t).next) s.pool.free free ∧ free.Nodup ∧
      (∀ t, t ∈ free ↔ t < n ∧ s.executing t = false) ∧
      s.pool.working + free.length = n ∧
      s.pool.working = (List.range n).countP s.executing := by
  obtain ⟨free, hchain, hnodup, hmem, hcount⟩ := h.pool.free
  have hidle : ∀ t, t ∈ free ↔ t < n ∧ s.executing t = false := by
    intro t
    rw [hmem]
    refine and_congr_right fun ht => ?_
    rw [Bool.eq_false_iff, Ne, h.executing_iff ht, not_not]
  have hlen := s.length_free hnodup hidle
  exact ⟨free, hchain, hnodup, hidle, by omega, by omega⟩

theorem working_eq (h : Inv n s) : s.pool.working = (List.range n).countP s.executing := by
  obtain ⟨free, -, -, -, -, hworking⟩ := h.free_tasks
  exact hworking

/-- `new_task` fails exactly when every task of the pool is executing. -/
theorem newTask_result (h : Inv n s) {c : CoId} {ph : Phase} (hpc : s.pc c = .user ph)
    (attr : TaskAttr) :
    s.newTask c ph attr = (s, -1) ∧ (∀ t < n, s.executing t = true) ∨
      ∃ t < n, s.executing t = false ∧ s.newTask c ph attr = (s.spawned c ph t attr, 0) := by
  cases hfree : s.pool.free with
  | none =>
      left
      constructor
      · unfold Sys.newTask
        rw [hfree]
        split <;> rfl
      · intro t ht
        exact (h.executing_iff ht).mpr (h.pool.free_none_iff.mp hfree t ht)
  | some t =>
      right
      obtain ⟨ht, hwait⟩ := h.pool.of_free hfree
      refine ⟨t, ht, ?_, Prod.ext (h.newTask_eq hpc hfree) ?_⟩
      · rw [Bool.eq_false_iff, Ne, h.executing_iff ht, hwait]
        simp
      · have hfull : s.pool.working ≠ s.pool.size := by
          intro hfull
          rw [h.pool.free_of_full hfull] at hfree
          simp at hfree
        simp [Sys.newTask, hfull, hfree]

end Inv

/-- No step changes the size of the pool. -/
theorem Transition.pool_size {n : Nat} {s s' : Sys} {a : Act} (htr : Transition n s a s')
    (h : Inv n s) : s'.pool.size = s.pool.size := by
  cases htr with
  | iterate hcurr hpc hset =>
      rw [h.iterate_rest hpc hset]
      rfl
  | _ => rfl

theorem Sys.Reached.pool_size {ok : Sys → Act → Prop} {tick : Nat} {size : Int} {s : Sys}
    (h : Sys.Reached ok tick size s) : s.pool.size = size :=
  h.induction (P := fun s => s.pool.size = size) rfl
    fun _ _ _ _ hinv _ htr hP => (htr.pool_size hinv).trans hP

/-- In every state that a thread with a pool of `n` tasks reaches, the free list
holds exactly the tasks that are not executing, each once, `working` counts the
others, and `new_task` fails, without any effect, exactly when all tasks are
executing; otherwise it hands out one that is not. -/
theorem taskPool_conserved {tick n : Nat} {s : Sys} (h : Sys.Reached always tick n s) :
    (∃ free : List TaskId,
      Chain (fun t => (s.tasks t).next) s.pool.free free ∧ free.Nodup ∧
      (∀ t, t ∈ free ↔ t < n ∧ s.executing t = false) ∧
      s.pool.working + free.length = s.pool.size) ∧
    s.pool.size = n ∧
    s.pool.working = (List.range n).countP s.executing ∧
    ∀ c ph attr, s.curr = some c → s.pc c = .user ph →
      ((s.newTask c ph attr).2 = -1 ↔ ∀ t < n, s.executing t = true) ∧
      ((s.newTask c ph attr).2 = -1 → (s.newTask c ph attr).1 = s) ∧
      ((s.newTask c ph attr).2 ≠ -1 → ∃ t < n, s.executing t = false ∧
        s.newTask c ph attr = (s.spawned c ph t attr, 0)) := by
  have hinv : Inv n s := h.inv
  have hsize : s.pool.size = n := h.pool_size
  obtain ⟨free, hchain, hnodup, hmem, hcount, hworking⟩ := hinv.free_tasks
  refine ⟨⟨free, hchain, hnodup, hmem, hcount.trans hsize.symm⟩, hsize, hworking, ?_⟩
  intro c ph attr _ hpc
  rcases hinv.newTask_result hpc attr with ⟨heq, hall⟩ | ⟨t, ht, hidle, heq⟩
  · simpa [heq] using hall
  · have hnot : ¬ ∀ t < n, s.executing t = true := by
      intro hall
      rw [hall t ht] at hidle
      simp at hidle
    exact ⟨by simp [heq, hnot], by simp [heq], fun _ => ⟨t, ht, hidle, heq⟩⟩

/-- Two nested calls use up a pool of two tasks. -/
theorem taskPool_conserved_nested :
    ∃ s, exec Sys.step (Sys.init 1000 2) [.newTask plainAttr, .newTask plainAttr] = some s ∧
      s.pool.working = (List.range 2).countP s.executing ∧ s.pool.working = 2 := by
  obtain ⟨s, hs, hreached⟩ := exec_reached 1000 2
    [.newTask plainAttr, .newTask plainAttr] rfl
  have hworking : s.pool.working = 2 := by
    have hmap := congrArg (Option.map fun s => s.pool.working) hs
    exact (Option.some.inj hmap).symm
  exact ⟨s, hs, (taskPool_conserved hreached).2.2.1, hworking⟩

end Libcr
