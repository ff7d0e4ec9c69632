import Libcr.Foundations.Chain
import Libcr.Scheduler.Discipline
import Libcr.Scheduler.Registration

/-!
# The scheduling invariant

`Inv n s` is what holds of a thread with a pool of `n` tasks whenever user code
or the event loop has control. It ties together the call stack, the free list
of the pool, the live `poll_inner` calls with the lists that hold their timer
items, and the epoll set. The place of a pooled coroutine decides where it is
to be found: on the call stack, on the free list, or asleep in `poll_inner`.
-/

namespace Libcr

/-- Tasks and coroutines are paired as `create_thread_taskpool` made them. -/
structure Paired (n : Nat) (coroutines : CoId → Coroutine) (tasks : TaskId → Task) :
    Prop where
  coroutine : ∀ t < n, (tasks t).coroutine = .worker t
  task : ∀ t < n, (coroutines (.worker t)).task = some t
  arg : ∀ t < n, (coroutines (.worker t)).arg = .task t
  state : ∀ t < n, (coroutines (.worker t)).state = .running
  main_task : (coroutines .main).task = none

/-- The free list holds the waiting tasks, and `working` counts the others. -/
structure PoolInv (n : Nat) (pool : Pool) (tasks : TaskId → Task) (pcs : CoId → Pc) :
    Prop where
  size_eq : pool.size.toNat = n
  state : ∀ t < n,
    (tasks t).state = if pcs (.worker t) = .waiting then .waiting else .running
  free : ∃ free : List TaskId,
    Chain (fun t => (tasks t).next) pool.free free ∧ free.Nodup ∧
      (∀ t, t ∈ free ↔ t < n ∧ pcs (.worker t) = .waiting) ∧
      pool.working + free.length = n

/-- The live `poll_inner` calls are those of the sleeping coroutines, each with
its timer item in one list; what is registered belongs to such a call. -/
structure FrameInv (n : Nat) (pcs : CoId → Pc) (L : TimerLists FrameId)
    (frames : FrameId → Option PollFrame) (set : Fd → Option Registration)
    (nextFrame : FrameId) : Prop where
  linked : L.WellLinked
  live_iff : ∀ f, (L.parent f).isSome = (frames f).isSome
  lists : ∀ f l, L.parent f = some l → l = .active ∨ ∃ k, l = .slot k
  active : pcs .main ≠ .draining → L.seq .active = []
  detached : ∀ f fr, frames f = some fr → fr.allEventDetatch = true →
    L.parent f = some .active
  fresh : ∀ f, nextFrame ≤ f → frames f = none
  owner : ∀ f fr, frames f = some fr →
    ∃ t < n, fr.coroutine = .worker t ∧ ∃ ph, pcs (.worker t) = .polling ph f
  asleep : ∀ t < n, ∀ ph f, pcs (.worker t) = .polling ph f →
    ∃ fr, frames f = some fr ∧ fr.coroutine = .worker t
  registered : ∀ fd r, set fd = some r → -1 < fd ∧
    ∃ fr, frames r.frame = some fr ∧ ∃ p, fr.fds[r.item]? = some p ∧ p.fd = fd

/-- The scheduling invariant of a thread with a pool of `n` tasks. -/
structure Inv (n : Nat) (s : Sys) : Prop where
  discipline : Discipline n s.callstack s.pc
  paired : Paired n s.coroutines s.tasks
  pool : PoolInv n s.pool s.tasks s.pc
  frames : FrameInv n s.pc s.lists s.frames s.epollSet s.nextFrame

namespace Paired

variable {n : Nat} {coroutines coroutines' : CoId → Coroutine} {tasks tasks' : TaskId → Task}

/-- Pairing survives changes to the other fields of tasks and coroutines. -/
theorem congr (h : Paired n coroutines tasks)
    (hco : ∀ c, (coroutines' c).task = (coroutines c).task ∧
      (coroutines' c).arg = (coroutines c).arg ∧
      (coroutines' c).state = (coroutines c).state)
    (htask : ∀ t, (tasks' t).coroutine = (tasks t).coroutine) :
    Paired n coroutines' tasks' where
  coroutine := fun t ht => (htask t).trans (h.coroutine t ht)
  task := fun t ht => (hco _).1.trans (h.task t ht)
  arg := fun t ht => (hco _).2.1.trans (h.arg t ht)
  state := fun t ht => (hco _).2.2.trans (h.state t ht)
  main_task := (hco _).1.trans h.main_task

end Paired

namespace PoolInv

variable {n : Nat} {pool : Pool} {tasks tasks' : TaskId → Task} {pcs pcs' : CoId → Pc}

/-- The pool only sees which coroutines wait and the links of the tasks. -/
theorem congr (h : PoolInv n pool tasks pcs)
    (hpc : ∀ t < n, pcs' (.worker t) = .waiting ↔ pcs (.worker t) = .waiting)
    (htask : ∀ t, (tasks' t).next = (tasks t).next ∧ (tasks' t).state = (tasks t).state) :
    PoolInv n pool tasks' pcs' where
  size_eq := h.size_eq
  state := by
    intro t ht
    rw [(htask t).2, h.state t ht]
    simp only [hpc t ht]
  free := by
    obtain ⟨free, hchain, hnodup, hmem, hcount⟩ := h.free
    refine ⟨free, hchain.congr fun t _ => (htask t).1, hnodup, ?_, hcount⟩
    intro t
    rw [hmem]
    exact and_congr_right fun ht => (hpc t ht).symm

/-- A free list that is not empty starts with a waiting task. -/
theorem of_free {t : TaskId} (h : PoolInv n pool tasks pcs) (hfree : pool.free = some t) :
    t < n ∧ pcs (.worker t) = .waiting := by
  obtain ⟨free, hchain, -, hmem, -⟩ := h.free
  rw [hfree] at hchain
  obtain ⟨rest, rfl, -⟩ := hchain.of_some
  exact (hmem t).mp (List.mem_cons_self ..)

/-- When `working` has reached `size` the free list is empty. -/
theorem free_of_full (h : PoolInv n pool tasks pcs) (hfull : pool.working = pool.size) :
    pool.free = none := by
  obtain ⟨free, hchain, -, hmem, hcount⟩ := h.free
  have hsize := h.size_eq
  have hnil : free = [] := by
    by_contra hne
    obtain ⟨t, ht⟩ := List.exists_mem_of_ne_nil free hne
    have hpos := List.length_pos_of_mem ht
    have hn : 0 < n := Nat.zero_lt_of_lt ((hmem t).mp ht).1
    omega
  rw [hnil] at hchain
  exact hchain

theorem free_none_iff (h : PoolInv n pool tasks pcs) :
    pool.free = none ↔ ∀ t < n, pcs (.worker t) ≠ .waiting := by
  obtain ⟨free, hchain, -, hmem, -⟩ := h.free
  constructor
  · intro hnone t ht hwait
    rw [hnone] at hchain
    have := (hmem t).mpr ⟨ht, hwait⟩
    rw [hchain.of_none] at this
    simp at this
  · intro hall
    cases hfree : pool.free with
    | none => rfl
    | some t =>
        have := h.of_free hfree
        exact absurd this.2 (hall t this.1)

/-- `new_task` takes the first task off the free list. -/
theorem pop {t : TaskId} {task : Task} (h : PoolInv n pool tasks pcs)
    (hfree : pool.free = some t) (hstate : task.state = .running)
    (hpc : pcs' (.worker t) ≠ .waiting)
    (hpcs : ∀ u < n, u ≠ t →
      (pcs' (.worker u) = .waiting ↔ pcs (.worker u) = .waiting)) :
    PoolInv n { pool with free := (tasks t).next, working := pool.working + 1 }
      (Function.update tasks t task) pcs' where
  size_eq := h.size_eq
  state := by
    intro u hu
    by_cases hut : u = t
    · subst hut
      simp [hstate, hpc]
    · rw [Function.update_of_ne hut, h.state u hu]
      simp only [hpcs u hu hut]
  free := by
    obtain ⟨free, hchain, hnodup, hmem, hcount⟩ := h.free
    rw [hfree] at hchain
    obtain ⟨rest, rfl, hrest⟩ := hchain.of_some
    rw [List.nodup_cons] at hnodup
    refine ⟨rest, ?_, hnodup.2, ?_, ?_⟩
    · refine hrest.congr fun u hu => ?_
      have hut : u ≠ t := fun heq => hnodup.1 (heq ▸ hu)
      rw [Function.update_of_ne hut]
    · intro u
      by_cases hut : u = t
      · subst hut
        simp [hnodup.1, hpc]
      · have hu := hmem u
        rw [List.mem_cons, or_iff_right hut] at hu
        rw [hu]
        exact and_congr_right fun hun => (hpcs u hun hut).symm
    · simp only [List.length_cons] at hcount
      dsimp only
      omega

/-- `task_main` puts a task that was running back on the free list. -/
theorem push {t : TaskId} {task : Task} (h : PoolInv n pool tasks pcs) (ht : t < n)
    (hnot : pcs (.worker t) ≠ .waiting) (hnext : task.next = pool.free)
    (hstate : task.state = .waiting) (hpc : pcs' (.worker t) = .waiting)
    (hpcs : ∀ u < n, u ≠ t →
      (pcs' (.worker u) = .waiting ↔ pcs (.worker u) = .waiting)) :
    PoolInv n { pool with free := some t, working := pool.working - 1 }
      (Function.update tasks t task) pcs' where
  size_eq := h.size_eq
  state := by
    intro u hu
    by_cases hut : u = t
    · subst hut
      simp [hstate, hpc]
    · rw [Function.update_of_ne hut, h.state u hu]
      simp only [hpcs u hu hut]
  free := by
    obtain ⟨free, hchain, hnodup, hmem, hcount⟩ := h.free
    have hout : t ∉ free := fun hin => hnot ((hmem t).mp hin).2
    refine ⟨t :: free, ?_, List.nodup_cons.mpr ⟨hout, hnodup⟩, ?_, ?_⟩
    · refine hchain.cons hout (by simp [hnext]) fun u hut => ?_
      rw [Function.update_of_ne hut]
    · intro u
      by_cases hut : u = t
      · subst hut
        simp [ht, hpc]
      · rw [List.mem_cons, or_iff_right hut, hmem]
        exact and_congr_right fun hun => (hpcs u hun hut).symm
    · simp only [List.length_cons]
      push_cast
      omega

end PoolInv

end Libcr
