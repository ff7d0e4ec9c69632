import Libcr.Foundations.Runs
import Libcr.Scheduler.Preservation

/-!
# Reachable states

`create_thread_taskpool` makes the coroutines of the pool one after the other.
Each is entered once, finds its task waiting, and comes back; after the loop all
tasks are on the free list. From there the scheduling invariant holds in every
state a run reaches.
-/

namespace Libcr

/-- A coroutine of the pool that has been entered once and waits for work. -/
def Coroutine.idle (t : TaskId) : Coroutine :=
  { fn := .taskMain, arg := .task t, state := .running, task := some t, pc := .waiting }

namespace Sys

variable {s : Sys}

/-- The coroutine that is made finds its task waiting and comes straight back. -/
theorem createTask_eq (hcallstack : s.callstack = [.main])
    (hmain : (s.coroutines .main).pc = .creating) (i : TaskId) :
    s.createTask i =
      { s with
        coroutines := Function.update s.coroutines (.worker i) (Coroutine.idle i)
        tasks := Function.update s.tasks i (freshTask i s.pool.free)
        pool := { s.pool with free := some i }
        trace := s.trace ++
          [.tasksIndex i, .index 0, .index 1, .yield 2, .index 0, .index 1] } := by
  have hsame : { s.coroutines .main with pc := .creating } = s.coroutines .main := by
    rw [← hmain]
  simp [createTask, coroutineResume, switchIn, coroutineMain, taskMain, yieldEnv, setPc, setCo,
    setTask, emit, pc, hcallstack, hmain, freshTask, Pc.landed, hsame, Coroutine.idle]

/-- The head of the free list after `n` tasks. -/
def freeAfter (s : Sys) : Nat → Option TaskId
  | 0 => s.pool.free
  | n + 1 => some n

/-- The thread after `n` turns of the loop of `create_thread_taskpool`. -/
def afterCreating (s : Sys) (n : Nat) : Sys :=
  { s with
    coroutines := fun c =>
      match c with
      | .main => s.coroutines .main
      | .worker k => if k < n then Coroutine.idle k else s.coroutines (.worker k)
    tasks := fun t => if t < n then freshTask t (s.freeAfter t) else s.tasks t
    pool := { s.pool with free := s.freeAfter n }
    trace := s.trace ++ (List.range n).flatMap fun i =>
      [.tasksIndex i, .index 0, .index 1, .yield 2, .index 0, .index 1] }

theorem foldl_createTask (hcallstack : s.callstack = [.main])
    (hmain : (s.coroutines .main).pc = .creating) (n : Nat) :
    (List.range n).foldl createTask s = s.afterCreating n := by
  induction n with
  | zero =>
      have hco : (fun c : CoId => match c with
          | .main => s.coroutines .main
          | .worker k => s.coroutines (.worker k)) = s.coroutines := by
        funext c
        cases c <;> rfl
      simp [afterCreating, freeAfter, hco]
  | succ n ih =>
      rw [List.range_succ, List.foldl_concat, ih,
        createTask_eq (s := s.afterCreating n) hcallstack hmain]
      have hco : Function.update (s.afterCreating n).coroutines (.worker n) (Coroutine.idle n) =
          (s.afterCreating (n + 1)).coroutines := by
        funext c
        cases c with
        | main => rfl
        | worker k =>
            by_cases hk : k = n
            · simp [hk, afterCreating]
            · have hlt : k < n + 1 ↔ k < n := by omega
              rw [Function.update_of_ne fun heq => hk (CoId.worker.inj heq)]
              exact if_congr hlt.symm rfl rfl
      have htasks : Function.update (s.afterCreating n).tasks n (freshTask n (s.freeAfter n)) =
          (s.afterCreating (n + 1)).tasks := by
        funext t
        by_cases ht : t = n
        · simp [ht, afterCreating]
        · have hlt : t < n + 1 ↔ t < n := Nat.lt_succ_iff_lt_or_eq.trans (or_iff_left ht)
          rw [Function.update_of_ne ht]
          exact if_congr hlt.symm rfl rfl
      have hpool : (s.afterCreating n).pool.free = s.freeAfter n := rfl
      rw [hco, hpool, htasks]
      simp [afterCreating, freeAfter, List.range_succ]

/-- The free list runs from the task made last to the one made first. -/
theorem chain_afterCreating (hfree : s.pool.free = none) {m n : Nat} (hmn : m ≤ n) :
    Chain (fun t => ((s.afterCreating n).tasks t).next) (s.freeAfter m) (List.range m).reverse := by
  induction m with
  | zero => exact hfree
  | succ m ih =>
      have hnext : ((s.afterCreating n).tasks m).next = s.freeAfter m := by
        simp [afterCreating, freshTask, Nat.lt_of_succ_le hmn]
      rw [List.range_succ, List.reverse_append, List.reverse_singleton, List.singleton_append]
      refine ⟨rfl, ?_⟩
      dsimp only
      rw [hnext]
      exact ih (Nat.le_of_succ_le hmn)

end Sys

/-- The observations made while a pool is created at the clock reading `tick`. -/
def Obs.ofCreation (tick : Nat) : Obs → Bool
  | .clock reading => reading = tick
  | .index i => i = 0 ∨ i = 1
  | .yield size => size = 2
  | .tasksIndex _ => true
  | _ => false

/-- The thread after `i` turns of the loop of `create_thread_taskpool`. -/
structure Created (tick : Nat) (i : Nat) (s : Sys) : Prop where
  callstack : s.callstack = [.main]
  main_pc : (s.coroutines .main).pc = .creating
  main_task : (s.coroutines .main).task = none
  workers : ∀ t < i, s.coroutines (.worker t) =
    { fn := .taskMain, arg := .task t, state := .running, task := some t, pc := .waiting }
  tasks : ∀ t < i, (s.tasks t).coroutine = .worker t ∧ (s.tasks t).state = .waiting
  last : ∀ t, (s.tasks t).last = 0
  unmarked : ∀ t, (s.tasks t).timeout = false
  free : Chain (fun t => (s.tasks t).next) s.pool.free (List.range i).reverse
  working : s.pool.working = 0
  now : s.now = 0
  wheel : s.wheel = Wheel.allocTimer kTimerSize (by decide) tick
  lists : s.lists = LinkedSeqs.empty
  epollSet : s.epollSet = fun _ => none
  frames : s.frames = fun _ => none
  nextFrame : s.nextFrame = 0
  trace : ∀ o ∈ s.trace, o.ofCreation tick

theorem created (tick n : Nat) :
    Created tick n ((List.range n).foldl Sys.createTask (Sys.initCurrThreadEnv tick)) := by
  rw [Sys.foldl_createTask rfl rfl]
  refine
    { callstack := rfl
      main_pc := rfl
      main_task := rfl
      workers := fun t ht => if_pos ht
      tasks := ?_
      last := ?_
      unmarked := ?_
      free := Sys.chain_afterCreating rfl (Nat.le_refl n)
      working := rfl
      now := rfl
      wheel := rfl
      lists := rfl
      epollSet := rfl
      frames := rfl
      nextFrame := rfl
      trace := ?_ }
  · intro t ht
    simp [Sys.afterCreating, ht, Sys.freshTask]
  · intro t
    by_cases ht : t < n
    · simp [Sys.afterCreating, ht, Sys.freshTask]
    · simp [Sys.afterCreating, ht, Sys.initCurrThreadEnv]
  · intro t
    by_cases ht : t < n
    · simp [Sys.afterCreating, ht, Sys.freshTask]
    · simp [Sys.afterCreating, ht, Sys.initCurrThreadEnv]
  · intro o ho
    rcases List.mem_append.mp ho with ho | ho
    · obtain rfl := List.mem_singleton.mp ho
      simp [Obs.ofCreation]
    · obtain ⟨i, -, ho⟩ := List.mem_flatMap.mp ho
      simp only [List.mem_cons, List.not_mem_nil, or_false] at ho
      rcases ho with rfl | rfl | rfl | rfl | rfl | rfl <;> rfl

theorem init_trace {tick : Nat} {size : Int} {o : Obs} (ho : o ∈ (Sys.init tick size).trace) :
    o.ofCreation tick :=
  (created tick size.toNat).trace o ho

theorem init_callstack (tick : Nat) (size : Int) : (Sys.init tick size).callstack = [.main] :=
  (created tick size.toNat).callstack

theorem init_working (tick : Nat) (size : Int) : (Sys.init tick size).pool.working = 0 :=
  (created tick size.toNat).working

theorem init_frames (tick : Nat) (size : Int) (f : FrameId) :
    (Sys.init tick size).frames f = none :=
  congrFun (created tick size.toNat).frames f

theorem init_pc_main (tick : Nat) (size : Int) :
    (Sys.init tick size).pc .main = .user .main := by
  simp [Sys.init, Sys.pc, Sys.setPc, Sys.setCo]

/-- A thread that has just been set up meets the scheduling invariant. -/
theorem inv_init (tick : Nat) (size : Int) : Inv size.toNat (Sys.init tick size) := by
  have h := created tick size.toNat
  generalize hs : (List.range size.toNat).foldl Sys.createTask (Sys.initCurrThreadEnv tick)
    = s at h
  have hinit : Sys.init tick size =
      { s with pool := { s.pool with size := size } }.setPc .main (.user .main) := by
    rw [Sys.init, Sys.createThreadTaskpool, hs]
  have hpc : (Sys.init tick size).pc = Function.update s.pc .main (.user .main) := by
    rw [hinit]
    exact Sys.pc_setPc ..
  have hworker : ∀ t < size.toNat, (Sys.init tick size).pc (.worker t) = .waiting := by
    intro t ht
    rw [hpc, Function.update_of_ne (by simp), Sys.pc, h.workers t ht]
  have hmain := init_pc_main tick size
  refine ⟨?_, ?_, ?_, ?_⟩
  · rw [init_callstack]
    refine
      { bottom := rfl
        nodup := by simp
        mem_main := by simp
        mem_iff := ?_
        top := ?_
        below := by simp
        main_fits := by rw [hmain]; rfl
        worker_fits := fun t ht => by rw [hworker t ht]; rfl }
    · intro t ht
      simp [hworker t ht, Pc.onStack]
    · intro c hc
      simp only [List.getLast?_singleton, Option.some.injEq] at hc
      rw [← hc, hmain]
      rfl
  · rw [hinit]
    refine ⟨?_, ?_, ?_, ?_, ?_⟩
    · exact fun t ht => (h.tasks t ht).1
    · exact fun t ht => by simp [Sys.setPc, Sys.setCo, h.workers t ht]
    · exact fun t ht => by simp [Sys.setPc, Sys.setCo, h.workers t ht]
    · exact fun t ht => by simp [Sys.setPc, Sys.setCo, h.workers t ht]
    · simpa [Sys.setPc, Sys.setCo] using h.main_task
  · refine ⟨?_, ?_, ?_⟩
    · rw [hinit]
      rfl
    · intro t ht
      rw [if_pos (hworker t ht), hinit]
      exact (h.tasks t ht).2
    · refine ⟨(List.range size.toNat).reverse, ?_, ?_, ?_, ?_⟩
      · rw [hinit]
        exact h.free
      · simpa using List.nodup_range
      · intro t
        simp only [List.mem_reverse, List.mem_range]
        exact ⟨fun ht => ⟨ht, hworker t ht⟩, fun ht => ht.1⟩
      · simp [init_working]
  · have hlists : (Sys.init tick size).lists = LinkedSeqs.empty := by
      rw [hinit]
      exact h.lists
    have hframes : (Sys.init tick size).frames = fun _ => none := by
      rw [hinit]
      exact h.frames
    have hset : (Sys.init tick size).epollSet = fun _ => none := by
      rw [hinit]
      exact h.epollSet
    rw [hlists, hframes, hset]
    refine
      { linked := LinkedSeqs.empty_wellLinked
        live_iff := by simp [LinkedSeqs.empty]
        lists := by simp [LinkedSeqs.empty]
        active := by simp [LinkedSeqs.empty]
        detached := by simp
        fresh := by simp
        owner := by simp
        asleep := ?_
        registered := by simp }
    intro t ht ph f hpoll
    rw [hworker t ht] at hpoll
    simp at hpoll

/-- The states a thread with a pool of the given size reaches, from its set-up
at the clock reading `tick`, by steps that all meet `ok`. -/
def Sys.Reached (ok : Sys → Act → Prop) (tick : Nat) (size : Int) (s : Sys) : Prop :=
  Reaches Sys.step ok (Sys.init tick size) s

namespace Sys.Reached

variable {ok : Sys → Act → Prop} {tick : Nat} {size : Int} {s : Sys}

/-- The scheduling invariant holds in every reached state. -/
theorem inv (h : Reached ok tick size s) : Inv size.toNat s :=
  Reaches.invariant h (inv_init tick size) fun _ _ _ _ hinv _ hstep =>
    (hinv.step_transition hstep).inv hinv

/-- What holds after the set-up and is kept by every transition from a reached
state holds in every reached state. -/
theorem induction {P : Sys → Prop} (h : Reached ok tick size s)
    (hinit : P (Sys.init tick size))
    (hstep : ∀ u a v, Reached ok tick size u → Inv size.toNat u → ok u a →
      Transition size.toNat u a v → P u → P v) : P s :=
  Reaches.invariant h hinit fun u a v hu hP hok huv =>
    have hinv := inv hu
    hstep u a v hu hinv hok (hinv.step_transition huv) hP

end Sys.Reached

/-- A list of actions that can be carried out leads to a reached state. -/
theorem exec_reached (tick : Nat) (size : Int) (acts : List Act)
    (h : (exec Sys.step (Sys.init tick size) acts).isSome) :
    ∃ s, exec Sys.step (Sys.init tick size) acts = some s ∧
      Sys.Reached always tick size s := by
  obtain ⟨s, hs⟩ := Option.isSome_iff_exists.mp h
  exact ⟨s, hs, exec_reaches (fun _ _ _ => trivial) hs⟩

/-- The same for a test that the last state passes. -/
theorem exec_reached_of (tick : Nat) (size : Int) (acts : List Act) (p : Sys → Bool)
    (h : (exec Sys.step (Sys.init tick size) acts).map p = some true) :
    ∃ s, Sys.Reached always tick size s ∧ p s = true := by
  obtain ⟨s, hs, hp⟩ := Option.map_eq_some_iff.mp h
  exact ⟨s, exec_reaches (fun _ _ _ => trivial) hs, hp⟩

/-- A task with hooks on and without a deadline. -/
def plainAttr : TaskAttr where
  enableSysHook := true
  maxTimeoutMs := -1
  arg := .user 0
  fn := .user 0
  timeout := .null

/-- A task with a callback and a deadline. -/
def lateAttr : TaskAttr where
  enableSysHook := true
  maxTimeoutMs := 5
  arg := .user 7
  fn := .user 1
  timeout := .user 2

/-- A `poll_inner` call for input on one descriptor, at the clock reading `tick`,
whose registration meets no error of the kernel. -/
def plainPoll (fd : Fd) (timeout : Int) (tick : Nat) : PollCall where
  fds := [⟨fd, pollIn⟩]
  timeout := timeout
  pollfunc := false
  addErr := fun _ => none
  delErr := fun _ => Errno.enoent
  tick := tick
  native := 0
  nativeRevents := []

end Libcr
