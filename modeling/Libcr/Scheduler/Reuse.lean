import Libcr.Scheduler.Execution
import Libcr.Scheduler.PoolConservation

/-!
# Which tasks are handed out, and with what they run

The free list of the pool is used from its head: `task_main` puts a task back where
`new_task` takes the next one from. A task that has never been used lies below all that
have, in the order in which `create_thread_taskpool` made them. So the stacks that a
thread ever runs user code on are as many as there were tasks executing at one time, no
matter how many tasks it runs or how large its pool is.
-/

namespace Libcr

/-- The number of executing tasks and the highest number so far, after one more entry. -/
def tally (load : Nat × Nat) : Obs → Nat × Nat
  | .created .. => (load.1 + 1, max load.2 (load.1 + 1))
  | .freed _ => (load.1 - 1, load.2)
  | _ => load

/-- How many tasks are executing at the end of a trace, and how many were executing at
one time at most. -/
def loadOf (os : List Obs) : Nat × Nat := os.foldl tally (0, 0)

/-- The entries that change the number of executing tasks. -/
def Obs.tallies : Obs → Bool
  | .created .. | .freed _ => true
  | _ => false

theorem foldl_tally_of_off {os : List Obs} (hoff : ∀ o ∈ os, o.tallies = false)
    (load : Nat × Nat) : os.foldl tally load = load := by
  induction os with
  | nil => rfl
  | cons o rest ih =>
      rw [List.forall_mem_cons] at hoff
      have ho : tally load o = load := by
        cases o with
        | created | freed => simp [Obs.tallies] at hoff
        | _ => rfl
      rw [List.foldl_cons, ho]
      exact ih hoff.2

theorem loadOf_append_of_off {os os' : List Obs} (hoff : ∀ o ∈ os', o.tallies = false) :
    loadOf (os ++ os') = loadOf os := by
  rw [loadOf, List.foldl_append]
  exact foldl_tally_of_off hoff _

/-- The task has been handed out at some time. -/
def UsedIn (os : List Obs) (t : TaskId) : Prop := ∃ attr cached, .created t attr cached ∈ os

/-- The free list with the tasks that were used before in front of those that were not. -/
structure Recycles (n : Nat) (s : Sys) : Prop where
  le : (loadOf s.trace).2 ≤ n
  used : ∀ t, UsedIn s.trace t ↔ t < n ∧ n ≤ (loadOf s.trace).2 + t
  free : ∃ recycled : List TaskId,
    Chain (fun t => (s.tasks t).next) s.pool.free
      (recycled ++ (List.range (n - (loadOf s.trace).2)).reverse) ∧
    recycled.length + (loadOf s.trace).1 = (loadOf s.trace).2

theorem usedIn_append {os os' : List Obs} {t : TaskId} :
    UsedIn (os ++ os') t ↔ UsedIn os t ∨ UsedIn os' t := by
  simp only [UsedIn, List.mem_append, exists_or]

theorem not_usedIn_of_off {os : List Obs} (hoff : ∀ o ∈ os, o.tallies = false) (t : TaskId) :
    ¬ UsedIn os t := by
  rintro ⟨attr, cached, hmem⟩
  simpa [Obs.tallies] using hoff _ hmem

namespace Recycles

variable {n : Nat} {s s' : Sys}

/-- A step that neither hands out a task nor takes one back. -/
theorem congr (h : Recycles n s) {os : List Obs} (htrace : s'.trace = s.trace ++ os)
    (hoff : ∀ o ∈ os, o.tallies = false) (hfree : s'.pool.free = s.pool.free)
    (hnext : ∀ t, (s'.tasks t).next = (s.tasks t).next) : Recycles n s' := by
  have hload : loadOf s'.trace = loadOf s.trace := by
    rw [htrace, loadOf_append_of_off hoff]
  refine ⟨?_, ?_, ?_⟩
  · rw [hload]
    exact h.le
  · intro t
    rw [hload, htrace, usedIn_append, or_iff_left (not_usedIn_of_off hoff t)]
    exact h.used t
  · obtain ⟨recycled, hchain, hlen⟩ := h.free
    rw [hload, hfree]
    exact ⟨recycled, hchain.congr fun t _ => hnext t, hlen⟩

/-- The free list of the pool is the one with the used tasks in front. -/
theorem free_eq (h : Recycles n s) (hinv : Inv n s) :
    ∃ recycled : List TaskId,
      Chain (fun t => (s.tasks t).next) s.pool.free
        (recycled ++ (List.range (n - (loadOf s.trace).2)).reverse) ∧
      recycled.length + (loadOf s.trace).1 = (loadOf s.trace).2 ∧
      (recycled ++ (List.range (n - (loadOf s.trace).2)).reverse).Nodup ∧
      ∀ t, t ∈ recycled ++ (List.range (n - (loadOf s.trace).2)).reverse ↔
        t < n ∧ s.executing t = false := by
  obtain ⟨recycled, hchain, hlen⟩ := h.free
  obtain ⟨free, hchain', hnodup, hmem, -⟩ := hinv.pool.free
  obtain rfl := hchain'.unique hchain
  refine ⟨recycled, hchain, hlen, hnodup, ?_⟩
  intro t
  rw [hmem]
  refine and_congr_right fun ht => ?_
  rw [Bool.eq_false_iff, Ne, hinv.executing_iff ht, not_not]

/-- `new_task` takes a task that was used before, or the next one that never was. -/
theorem spawned (h : Recycles n s) (hinv : Inv n s) {c : CoId} {ph : Phase} {t : TaskId}
    {attr : TaskAttr} (hfree : s.pool.free = some t) : Recycles n (s.spawned c ph t attr) := by
  obtain ⟨recycled, hchain, hlen, hnodup, hmem⟩ := h.free_eq hinv
  have hle := h.le
  have hload : loadOf (s.spawned c ph t attr).trace =
      ((loadOf s.trace).1 + 1, max (loadOf s.trace).2 ((loadOf s.trace).1 + 1)) := by
    rw [loadOf, Sys.spawned, List.foldl_append]
    rfl
  have hused : ∀ u, UsedIn (s.spawned c ph t attr).trace u ↔ UsedIn s.trace u ∨ u = t := by
    intro u
    rw [Sys.spawned, usedIn_append]
    apply or_congr_right
    simp [UsedIn, eq_comm]
  -- what is left of the free list does not see the task that was taken
  have htail : ∀ {rest : List TaskId},
      recycled ++ (List.range (n - (loadOf s.trace).2)).reverse = t :: rest →
      Chain (fun u => ((s.spawned c ph t attr).tasks u).next)
        (s.spawned c ph t attr).pool.free rest := by
    intro rest hsplit
    rw [hsplit] at hchain hnodup
    apply hchain.2.congr
    intro u hu
    have hut : u ≠ t := by
      rintro rfl
      exact (List.nodup_cons.mp hnodup).1 hu
    simp [Sys.spawned, Function.update_of_ne hut]
  cases recycled with
  | cons t' rest =>
      obtain rfl : t' = t := by
        have hhead := hchain.1
        rw [hfree] at hhead
        exact (Option.some.inj hhead).symm
      have ht : t' < n ∧ n ≤ (loadOf s.trace).2 + t' := by
        have hlt := ((hmem t').mp (by simp)).1
        have hnot : t' ∉ List.range (n - (loadOf s.trace).2) := by
          intro hin
          rw [List.cons_append, List.nodup_cons] at hnodup
          exact hnodup.1 (List.mem_append_right _ (List.mem_reverse.mpr hin))
        rw [List.mem_range] at hnot
        exact ⟨hlt, Nat.sub_le_iff_le_add'.mp (Nat.le_of_not_lt hnot)⟩
      have hpeak : max (loadOf s.trace).2 ((loadOf s.trace).1 + 1) = (loadOf s.trace).2 := by
        simp only [List.length_cons] at hlen
        omega
      refine ⟨?_, ?_, rest, ?_, ?_⟩
      · rw [hload, hpeak]
        exact hle
      · intro u
        rw [hload, hpeak, hused, h.used]
        constructor
        · rintro (hu | rfl)
          · exact hu
          · exact ht
        · exact Or.inl
      · rw [hload, hpeak]
        exact htail rfl
      · rw [hload, hpeak]
        simp only [List.length_cons] at hlen
        dsimp only
        omega
  | nil =>
      have hpos : n - (loadOf s.trace).2 ≠ 0 := by
        intro hzero
        rw [hzero] at hchain
        have hnone : s.pool.free = none := hchain
        rw [hfree] at hnone
        simp at hnone
      obtain ⟨m, hm⟩ := Nat.exists_eq_succ_of_ne_zero hpos
      have hsplit : ([] : List TaskId) ++ (List.range (n - (loadOf s.trace).2)).reverse =
          m :: (List.range m).reverse := by
        rw [hm, List.range_succ]
        simp
      obtain rfl : m = t := by
        rw [hsplit] at hchain
        have hhead := hchain.1
        rw [hfree] at hhead
        exact (Option.some.inj hhead).symm
      have hrest : n - ((loadOf s.trace).2 + 1) = m := by omega
      have hnext : ∀ u, (u < n ∧ n ≤ (loadOf s.trace).2 + u) ∨ u = m ↔
          u < n ∧ n ≤ (loadOf s.trace).2 + 1 + u := by
        intro u
        omega
      have hpeak : max (loadOf s.trace).2 ((loadOf s.trace).1 + 1) =
          (loadOf s.trace).2 + 1 := by
        simp only [List.length_nil] at hlen
        omega
      refine ⟨?_, ?_, [], ?_, ?_⟩
      · rw [hload, hpeak]
        dsimp only
        omega
      · intro u
        rw [hload, hpeak, hused, h.used]
        exact hnext u
      · rw [hload, hpeak]
        dsimp only
        rw [hrest]
        exact htail hsplit
      · rw [hload, hpeak]
        simp only [List.length_nil] at hlen ⊢
        omega

/-- `task_main` puts its task in front of the free list. -/
theorem finished (h : Recycles n s) (hinv : Inv n s) {last : CoId} {t : TaskId} (ht : t < n)
    (hexec : s.executing t = true) : Recycles n (s.finished last t) := by
  obtain ⟨recycled, hchain, hlen, hnodup, hmem⟩ := h.free_eq hinv
  have hload : loadOf (s.finished last t).trace = ((loadOf s.trace).1 - 1, (loadOf s.trace).2) := by
    rw [loadOf, Sys.finished, List.foldl_append]
    rfl
  have hout : t ∉ recycled ++ (List.range (n - (loadOf s.trace).2)).reverse := by
    rw [hmem, hexec]
    simp
  have hpos : 0 < (loadOf s.trace).1 := by
    have hcount := s.length_free hnodup hmem
    have hone : 0 < (List.range n).countP s.executing :=
      List.countP_pos_iff.mpr ⟨t, List.mem_range.mpr ht, hexec⟩
    have hle := h.le
    simp only [List.length_append, List.length_reverse, List.length_range] at hcount
    omega
  refine ⟨?_, ?_, t :: recycled, ?_, ?_⟩
  · rw [hload]
    exact h.le
  · intro u
    rw [hload, Sys.finished, usedIn_append, h.used]
    simp [UsedIn]
  · rw [hload, List.cons_append]
    apply hchain.cons hout
    · simp [Sys.finished, Task.release]
    · intro u hu
      simp [Sys.finished, Function.update_of_ne hu]
  · rw [hload, List.length_cons]
    dsimp only
    omega

end Recycles

/-- The actions that hand out tasks or take them back. -/
def Act.manages : Act → Bool
  | .newTask _ | .ret => true
  | _ => false

theorem tallies_of_records {a : Act} {o : Obs} (ha : a.manages = false)
    (h : a.records o = true) : o.tallies = false := by
  cases o with
  | created | freed => cases a <;> simp [Act.manages, Act.records] at ha h
  | _ => rfl

theorem Transition.recycles {n : Nat} {s s' : Sys} {a : Act} (htr : Transition n s a s')
    (h : Inv n s) (hrec : Recycles n s) : Recycles n s' := by
  obtain ⟨os, htrace, hkind⟩ := htr.records h
  cases htr with
  | full => exact hrec
  | spawn hcurr hpc ht hfree => exact hrec.spawned h hfree
  | @finish t ph last ht hcurr hpc hlast hph =>
      apply hrec.finished h ht
      rw [h.executing_iff ht, hpc]
      simp
  | callback => exact hrec.congr rfl (by simp [Obs.tallies]) rfl fun _ => rfl
  | expired | fallback | reject | suspend =>
      exact hrec.congr htrace (fun o ho => tallies_of_records rfl (hkind o ho)) rfl
        fun u => (Inv.fixed_tasks ..).2.1
  | @iterate events tick hcurr hpc hset =>
      have hrest := h.iterate_rest hpc hset tick
      apply hrec.congr htrace (fun o ho => tallies_of_records rfl (hkind o ho))
      · rw [hrest]
        rfl
      · intro u
        rw [hrest]
        rfl
  | _ =>
      exact hrec.congr htrace (fun o ho => tallies_of_records rfl (hkind o ho)) rfl fun _ => rfl

theorem recycles_init (tick : Nat) (size : Int) : Recycles size.toNat (Sys.init tick size) := by
  have hc := created tick size.toNat
  have hoff : ∀ o ∈ (Sys.init tick size).trace, o.tallies = false := by
    intro o ho
    have hcreation := init_trace ho
    cases o with
    | created | freed => simp [Obs.ofCreation] at hcreation
    | _ => rfl
  have hload : loadOf (Sys.init tick size).trace = (0, 0) := foldl_tally_of_off hoff (0, 0)
  refine ⟨?_, ?_, [], ?_, ?_⟩
  · rw [hload]
    exact Nat.zero_le _
  · intro t
    rw [hload]
    refine iff_of_false (not_usedIn_of_off hoff t) ?_
    simp
  · rw [hload]
    exact hc.free
  · rw [hload]
    rfl

/-- The tasks that a thread has ever handed out, with their coroutines and stacks, are the
last ones of its pool, as many as were executing at one time: a task that was used before
is always taken in preference to one that was not. -/
theorem used_tasks {ok : Sys → Act → Prop} {tick : Nat} {size : Int} {s : Sys}
    (h : Sys.Reached ok tick size s) :
    (loadOf s.trace).1 = s.pool.working ∧
      ∀ t, UsedIn s.trace t ↔ t < size.toNat ∧ size.toNat ≤ (loadOf s.trace).2 + t := by
  have hrec : Recycles size.toNat s :=
    h.induction (P := Recycles size.toNat) (recycles_init tick size)
      fun _ _ _ _ hinv _ htr hrec => htr.recycles hinv hrec
  refine ⟨?_, hrec.used⟩
  obtain ⟨recycled, hchain, hlen⟩ := hrec.free
  obtain ⟨free, hchain', -, -, hcount⟩ := h.inv.pool.free
  have hle := hrec.le
  rw [hchain'.unique hchain, List.length_append, List.length_reverse, List.length_range] at hcount
  omega

/-- Three tasks that run one after the other all run on the coroutine of the last task of a
pool of five. -/
theorem used_tasks_in_turn :
    ∃ s, exec Sys.step (Sys.init 1000 5)
        [.newTask plainAttr, .ret, .newTask plainAttr, .ret, .newTask lateAttr, .ret] = some s ∧
      UsedIn s.trace 4 ∧ ∀ t : Nat, t < 4 → ¬ UsedIn s.trace t := by
  obtain ⟨s, hs, htest⟩ := Option.map_eq_some_iff.mp (show
    (exec Sys.step (Sys.init 1000 5)
      [.newTask plainAttr, .ret, .newTask plainAttr, .ret, .newTask lateAttr, .ret]).map (fun s =>
        decide ((loadOf s.trace).2 = 1)) = some true by
    decide +kernel)
  have hreached : Sys.Reached always 1000 5 s := exec_reaches (fun _ _ _ => trivial) hs
  have hused := (used_tasks hreached).2
  rw [of_decide_eq_true htest] at hused
  refine ⟨s, hs, (hused 4).mpr (by decide), ?_⟩
  intro t ht hmem
  have hbound : 5 ≤ 1 + t := ((hused t).mp hmem).2
  omega

/-- `coroutine_arg`. -/
def Sys.coroutineArg (s : Sys) : Arg :=
  match s.curr with
  | none => .null
  | some c =>
      match (s.coroutines c).task with
      | none => .null
      | some t => (s.tasks t).arg

/-- The task has been handed out with the argument that it has now, and not been taken back
since. -/
def Sys.HandedOut (s : Sys) (t : TaskId) : Prop :=
  ∃ before os attr cached, s.trace = before ++ .created t attr cached :: os ∧
    .freed t ∉ os ∧ (s.tasks t).arg = attr.arg

section Arguments

variable {n : Nat} {s s' : Sys}

theorem Sys.HandedOut.extend {t : TaskId} (h : s.HandedOut t) {os : List Obs}
    (htrace : s'.trace = s.trace ++ os) (hos : .freed t ∉ os)
    (harg : (s'.tasks t).arg = (s.tasks t).arg) : s'.HandedOut t := by
  obtain ⟨before, os₁, attr, cached, hsplit, hfreed, hattr⟩ := h
  refine ⟨before, os₁ ++ os, attr, cached, ?_, ?_, harg.trans hattr⟩
  · rw [htrace, hsplit, List.append_assoc, List.cons_append]
  · rw [List.mem_append, not_or]
    exact ⟨hfreed, hos⟩

theorem Sys.fixed_arg (t : TaskId) (call : PollCall) (u : TaskId) :
    ((s.fixed t call).tasks u).arg = (s.tasks u).arg := by
  by_cases hu : u = t
  · subst hu
    obtain ⟨timeout', leftmsec', last', heq⟩ :=
      fixCoroutineTimeout_task (s.tasks u) s.now call.timeout
    simp [Sys.fixed, Sys.fix, heq]
  · simp [Sys.fixed, Function.update_of_ne hu]

/-- The tasks that do not wait have been handed out. -/
def Sys.RunsHandedOut (n : Nat) (s : Sys) : Prop :=
  ∀ t < n, (s.tasks t).state = .running → s.HandedOut t

theorem Transition.runsHandedOut {a : Act} (htr : Transition n s a s') (h : Inv n s)
    (hruns : s.RunsHandedOut n) : s'.RunsHandedOut n := by
  obtain ⟨os, htrace, hkind⟩ := htr.records h
  -- only `new_task` and `task_main` change the state of a task
  have hkeep : a.manages = false → (∀ t, (s'.tasks t).arg = (s.tasks t).arg ∧
      (s'.tasks t).state = (s.tasks t).state) → s'.RunsHandedOut n := by
    intro ha htasks t ht hstate
    rw [(htasks t).2] at hstate
    apply (hruns t ht hstate).extend htrace _ (htasks t).1
    intro hmem
    simpa [Obs.tallies] using tallies_of_records ha (hkind _ hmem)
  cases htr with
  | full => exact hruns
  | callback =>
      intro t ht hstate
      exact (hruns t ht hstate).extend rfl (by simp) rfl
  | @spawn c ph attr u =>
      intro t ht hstate
      by_cases htu : t = u
      · subst htu
        refine ⟨s.trace, _, attr, s.now, rfl, by simp, ?_⟩
        simp [Sys.spawned, Task.submit]
      · have hsame : (s.spawned c ph u attr).tasks t = s.tasks t := by
          simp [Sys.spawned, Function.update_of_ne htu]
        rw [hsame] at hstate
        exact (hruns t ht hstate).extend rfl (by simp) (by rw [hsame])
  | @finish u ph last =>
      intro t ht hstate
      by_cases htu : t = u
      · subst htu
        simp [Sys.finished, Task.release] at hstate
      · have hsame : (s.finished last u).tasks t = s.tasks t := by
          simp [Sys.finished, Function.update_of_ne htu]
        rw [hsame] at hstate
        exact (hruns t ht hstate).extend rfl (by simpa using htu) (by rw [hsame])
  | expired | fallback | reject | suspend =>
      exact hkeep rfl fun u => ⟨Sys.fixed_arg .., (Inv.fixed_tasks ..).2.2⟩
  | @iterate events tick hcurr hpc hset =>
      apply hkeep rfl
      rw [h.iterate_rest hpc hset tick]
      exact fun _ => ⟨rfl, rfl⟩
  | _ => exact hkeep rfl fun _ => ⟨rfl, rfl⟩

end Arguments

theorem Sys.Reached.runsHandedOut {ok : Sys → Act → Prop} {tick : Nat} {size : Int} {s : Sys}
    (h : Sys.Reached ok tick size s) : s.RunsHandedOut size.toNat := by
  refine h.induction (P := Sys.RunsHandedOut size.toNat) ?_ fun _ _ _ _ hinv _ htr hruns =>
    htr.runsHandedOut hinv hruns
  intro t ht hstate
  have hwaiting : ((Sys.init tick size).tasks t).state = .waiting :=
    ((created tick size.toNat).tasks t ht).2
  rw [hwaiting] at hstate
  simp at hstate

/-- Wherever a thread is, `coroutine_arg` returns the argument of the task whose code
calls it: what the `coroutine_new_task` was given that handed out this task last, in its
function as well as in its timeout callback, whatever ran in between. Outside of tasks it
returns a null pointer. -/
theorem coroutineArg_submitted {ok : Sys → Act → Prop} {tick : Nat} {size : Int} {s : Sys}
    (h : Sys.Reached ok tick size s) :
    (s.curr = some .main → s.coroutineArg = .null) ∧
      ∀ t, s.curr = some (.worker t) →
        ∃ before os attr cached, s.trace = before ++ .created t attr cached :: os ∧
          .freed t ∉ os ∧ s.coroutineArg = attr.arg := by
  have hinv := h.inv
  constructor
  · intro hcurr
    simp [Sys.coroutineArg, hcurr, hinv.paired.main_task]
  · intro t hcurr
    have ht := hinv.discipline.mem_main t (List.mem_of_getLast? hcurr)
    have hstate : (s.tasks t).state = .running := by
      rw [hinv.pool.state t ht, if_neg]
      intro hwait
      have hrun := hinv.discipline.top _ hcurr
      simp [hwait, Pc.isRunning] at hrun
    obtain ⟨before, os, attr, cached, htrace, hfreed, harg⟩ := h.runsHandedOut t ht hstate
    refine ⟨before, os, attr, cached, htrace, hfreed, ?_⟩
    simpa [Sys.coroutineArg, hcurr, hinv.paired.task t ht] using harg

/-- A task that is used again has the argument of its second submission. -/
theorem coroutineArg_submitted_again :
    ∃ (s : Sys) (attr : TaskAttr), exec Sys.step (Sys.init 1000 1)
        [.newTask lateAttr, .ret, .newTask plainAttr] = some s ∧
      s.coroutineArg = attr.arg ∧ attr.arg = .user 0 := by
  obtain ⟨s, hs, htest⟩ := Option.map_eq_some_iff.mp (show
    (exec Sys.step (Sys.init 1000 1) [.newTask lateAttr, .ret, .newTask plainAttr]).map (fun s =>
      decide (s.curr = some (.worker 0)) && decide (s.coroutineArg = .user 0)) = some true by
    decide +kernel)
  rw [Bool.and_eq_true, decide_eq_true_eq, decide_eq_true_eq] at htest
  have hreached : Sys.Reached always 1000 1 s := exec_reaches (fun _ _ _ => trivial) hs
  obtain ⟨before, os, attr, cached, -, -, harg⟩ := (coroutineArg_submitted hreached).2 0 htest.1
  exact ⟨s, attr, hs, harg, harg ▸ htest.2⟩

end Libcr
