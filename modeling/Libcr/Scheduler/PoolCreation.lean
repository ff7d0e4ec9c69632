import Libcr.Scheduler.Init

/-!
# Making a pool

`create_thread_taskpool` on any environment in which only `main` runs. For every size the
pool comes out as it should: each task has a coroutine of its own that waits in
`task_main`, the free list holds each task once, and `main` is back on top. But the array
for the tasks is allocated with room for one pointer, so that the second store is already
behind its end. The stores are recorded and not performed: what they overwrite behind the
block is not described.
-/

namespace Libcr

/-- The number of bytes allocated for `pool->tasks`, which is `sizeof(task_t*)`. -/
def kTasksBytes : Nat := 8

/-- The store into `pool->tasks[i]` writes bytes of the block only. -/
def InTasksBlock (i : Nat) : Prop := 8 * i + 8 ≤ kTasksBytes

/-- An environment on which `create_thread_taskpool` is called: only `main` runs, and the
pool is what `memset` leaves. -/
structure Sys.Unpooled (s : Sys) : Prop where
  callstack : s.callstack = [.main]
  creating : (s.coroutines .main).pc = .creating
  pool : s.pool = { free := none, size := 0, working := 0 }

/-- All stores into `pool->tasks` between two states are inside the block. -/
def StoresInBlock (s s' : Sys) : Prop :=
  ∀ i, Obs.tasksIndex i ∈ s'.trace.drop s.trace.length → InTasksBlock i

/-- The pool that should come out of an environment `s`, with the given tasks. -/
structure PoolMade (s s' : Sys) (tasks : List TaskId) : Prop where
  distinct : tasks.Nodup
  paired : (tasks.map fun t => (s'.tasks t).coroutine).Nodup
  idle : ∀ t ∈ tasks, (s'.tasks t).state = .waiting ∧
    s'.coroutines (s'.tasks t).coroutine = Coroutine.idle t
  free : ∃ xs, Chain (fun t => (s'.tasks t).next) s'.pool.free xs ∧ xs.Perm tasks
  working : s'.pool.working = 0
  size : s'.pool.size = tasks.length
  callstack : s'.callstack = s.callstack

variable {s : Sys} {n : Int}

theorem Sys.Unpooled.createThreadTaskpool_eq (hs : s.Unpooled) (n : Int) :
    s.createThreadTaskpool n = { s.afterCreating n.toNat with
      pool := { (s.afterCreating n.toNat).pool with size := n } } := by
  rw [Sys.createThreadTaskpool, Sys.foldl_createTask hs.callstack hs.creating]

/-- The loop stores into every index below the size. -/
theorem Sys.Unpooled.tasksIndex_iff (hs : s.Unpooled) (i : Nat) :
    Obs.tasksIndex i ∈ (s.createThreadTaskpool n).trace.drop s.trace.length ↔ i < n := by
  rw [hs.createThreadTaskpool_eq]
  simp [Sys.afterCreating]

/-- Whatever the size, the pool is made as it should be. -/
theorem Sys.Unpooled.poolMade (hs : s.Unpooled) (hn : 0 ≤ n) :
    PoolMade s (s.createThreadTaskpool n) (List.range n.toNat) := by
  rw [hs.createThreadTaskpool_eq]
  have htask : ∀ t ∈ List.range n.toNat,
      (s.afterCreating n.toNat).tasks t = Sys.freshTask t (s.freeAfter t) :=
    fun t ht => if_pos (List.mem_range.mp ht)
  have hworkers : (List.range n.toNat).map
      (fun t => ((s.afterCreating n.toNat).tasks t).coroutine) =
        (List.range n.toNat).map CoId.worker :=
    List.map_congr_left fun t ht => congrArg Task.coroutine (htask t ht)
  refine
    { distinct := List.nodup_range
      paired := ?_
      idle := ?_
      free := ⟨_, Sys.chain_afterCreating (by rw [hs.pool]) (Nat.le_refl _), List.reverse_perm _⟩
      working := by rw [Sys.afterCreating, hs.pool]
      size := ?_
      callstack := rfl }
  · rw [hworkers]
    exact List.nodup_range.map fun _ _ h => CoId.worker.inj h
  · intro t ht
    dsimp only
    rw [htask t ht]
    exact ⟨rfl, if_pos (List.mem_range.mp ht)⟩
  · rw [List.length_range, Int.toNat_of_nonneg hn]

/-- The pool is made within its memory just for the sizes 0 and 1. -/
theorem createThreadTaskpool_iff (hs : s.Unpooled) (hn : 0 ≤ n) :
    (StoresInBlock s (s.createThreadTaskpool n) ∧
        ∃ tasks, (tasks.length : Int) = n ∧ PoolMade s (s.createThreadTaskpool n) tasks) ↔
      n ≤ 1 := by
  have hmade : ∃ tasks : List TaskId, (tasks.length : Int) = n ∧
      PoolMade s (s.createThreadTaskpool n) tasks :=
    ⟨List.range n.toNat, by rw [List.length_range, Int.toNat_of_nonneg hn], hs.poolMade hn⟩
  rw [and_iff_left hmade]
  constructor
  · intro hstores
    by_contra hsize
    have hout := hstores 1 ((hs.tasksIndex_iff 1).mpr (by omega))
    simp [InTasksBlock, kTasksBytes] at hout
  · intro hsize i hi
    rw [hs.tasksIndex_iff] at hi
    have hzero : i = 0 := by omega
    rw [hzero]
    exact Nat.le_refl 8

theorem unpooled_initCurrThreadEnv (tick : Nat) : (Sys.initCurrThreadEnv tick).Unpooled :=
  ⟨rfl, rfl, rfl⟩

/-- A pool of one task. -/
theorem createThreadTaskpool_iff_one :
    StoresInBlock (Sys.initCurrThreadEnv 7) ((Sys.initCurrThreadEnv 7).createThreadTaskpool 1) ∧
      ∃ tasks, (tasks.length : Int) = 1 ∧
        PoolMade (Sys.initCurrThreadEnv 7)
          ((Sys.initCurrThreadEnv 7).createThreadTaskpool 1) tasks :=
  (createThreadTaskpool_iff (unpooled_initCurrThreadEnv 7) (by decide)).mpr (Int.le_refl 1)

/-- The default pool of 1000 tasks: the second store and the last one are behind the end
of the block. -/
theorem createThreadTaskpool_overflow :
    (Obs.tasksIndex 1 ∈ ((Sys.initCurrThreadEnv 7).createThreadTaskpool
        (Sys.taskPerThread 0)).trace ∧ ¬ InTasksBlock 1) ∧
      Obs.tasksIndex 999 ∈ ((Sys.initCurrThreadEnv 7).createThreadTaskpool
        (Sys.taskPerThread 0)).trace ∧ ¬ InTasksBlock 999 := by
  have hstored : ∀ i : Nat, i < 1000 → Obs.tasksIndex i ∈
      ((Sys.initCurrThreadEnv 7).createThreadTaskpool (Sys.taskPerThread 0)).trace := by
    intro i hi
    have hsize : Sys.taskPerThread 0 = 1000 := rfl
    refine List.mem_of_mem_drop (((unpooled_initCurrThreadEnv 7).tasksIndex_iff i).mpr ?_)
    omega
  have hout : ∀ i : Nat, 1 ≤ i → ¬ InTasksBlock i := by
    intro i hi
    rw [InTasksBlock, kTasksBytes]
    omega
  exact ⟨⟨hstored 1 (by decide), hout 1 (by decide)⟩, hstored 999 (by decide), hout 999 (by decide)⟩

end Libcr
