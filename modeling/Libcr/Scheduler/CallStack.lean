import Mathlib.Data.List.Perm.Subperm
import Libcr.Scheduler.Trace

/-!
# The bounds of the call stack

Nothing in `coroutine_resume` compares `callstacksize` with `kMaxCallStack`. The
depth is bounded by the pool all the same: no coroutine is on the stack twice, so
a pool of `n` tasks never needs more than `n + 1` entries. A pool with fewer tasks
than the stack has entries is therefore safe, and with any larger pool nested
`coroutine_new_task` calls run past the end. The stack is a list in the model, and an index
is recorded when it is used; what a store behind `env->callstack` overwrites is not described.
-/

namespace Libcr

/-- Every index used on `env->callstack` lies in the array, `callstacksize` is
positive, and it was at least two whenever `yield_env` was entered. -/
def Sys.StackInBounds (s : Sys) : Prop :=
  (∀ i, .index i ∈ s.trace → 0 ≤ i ∧ i < kMaxCallStack) ∧ 1 ≤ s.callstack.length ∧
    ∀ size, .yield size ∈ s.trace → 2 ≤ size

/-- A stack without repetition has no more entries than there are coroutines. -/
theorem Discipline.length_le {n : Nat} {stack : List CoId} {pcs : CoId → Pc}
    (h : Discipline n stack pcs) : stack.length ≤ n + 1 := by
  have hsub : stack ⊆ .main :: (List.range n).map .worker := by
    intro c hc
    cases c with
    | main => simp
    | worker t => simp [h.mem_main t hc]
  simpa using (List.subperm_of_subset h.nodup hsub).length_le

/-- Whether an entry about the call stack respects the bounds of a pool of `n`. -/
def Obs.respects (n : Nat) : Obs → Prop
  | .index i => 0 ≤ i ∧ i ≤ n
  | .yield size => 2 ≤ size
  | _ => True

section Steps

variable {n : Nat} {s s' : Sys}

/-- `coroutine_resume` on a stack that has room for one more coroutine. -/
theorem respects_resume {len : Nat} (hpos : 1 ≤ len) (hle : len ≤ n) {o : Obs}
    (ho : o = .index ((len : Int) - 1) ∨ o = .index len) : o.respects n := by
  rcases ho with rfl | rfl
  · exact ⟨by omega, by omega⟩
  · exact ⟨by omega, by omega⟩

/-- `yield_env` by a coroutine that is not the only one on the stack. -/
theorem respects_yield {len : Nat} (htwo : 2 ≤ len) (hle : len ≤ n + 1) {o : Obs}
    (ho : o = .yield len ∨ o = .index ((len : Int) - 2) ∨ o = .index ((len : Int) - 1)) :
    o.respects n := by
  rcases ho with rfl | rfl | rfl
  · exact htwo
  · exact ⟨by omega, by omega⟩
  · exact ⟨by omega, by omega⟩

/-- The use of the top of the stack by `curr_coroutine`. -/
theorem Inv.respects_curr (h : Inv n s) :
    (Obs.index ((s.callstack.length : Int) - 1)).respects n := by
  have hpos := h.discipline.length_pos
  have hle := h.discipline.length_le
  exact ⟨by omega, by omega⟩

/-- The beginning of `poll_inner`. -/
theorem Inv.respects_fixed (h : Inv n s) {t : TaskId} {call : PollCall} {o : Obs}
    (ho : o ∈ (s.fixed t call).trace) : o ∈ s.trace ∨ o.respects n := by
  simp only [Sys.fixed, List.mem_append, List.mem_cons, List.not_mem_nil, or_false] at ho
  rcases ho with ho | rfl | rfl
  · exact Or.inl ho
  · exact Or.inr h.respects_curr
  · exact Or.inr trivial

theorem respects_register {call : PollCall} {o : Obs} (ho : o ∈ (s.register call).2.1) :
    o.respects n := by
  obtain ⟨k, fd, rfl, -⟩ := mem_addEpoll_obs ho
  trivial

theorem respects_delEpoll {f : FrameId} {fds : List PollFd}
    {set : Fd → Option Registration} {o : Obs} (ho : o ∈ (delEpoll f fds set).2) :
    o.respects n := by
  obtain ⟨fd, r, rfl, -⟩ := mem_delEpoll_obs.mp ho
  trivial

/-- What a step records about the call stack stays within the bounds of the pool. -/
theorem Transition.respects {a : Act} (htr : Transition n s a s') (h : Inv n s) {o : Obs}
    (ho : o ∈ s'.trace) : o ∈ s.trace ∨ o.respects n := by
  have hpos := h.discipline.length_pos
  have hle := h.discipline.length_le
  have hle' := (htr.inv h).discipline.length_le
  cases htr with
  | full => exact Or.inl ho
  | drained => exact Or.inl ho
  | spawn =>
      -- The coroutine that is pushed is on the stack afterwards, so there was room.
      have hroom : s.callstack.length ≤ n := by
        simpa [Sys.spawned] using hle'
      simp only [Sys.spawned, List.mem_append, List.mem_cons, List.not_mem_nil,
        or_false] at ho
      rcases ho with ho | rfl | ho | ho | rfl
      · exact Or.inl ho
      · exact Or.inr trivial
      · exact Or.inr (respects_resume hpos hroom (Or.inl ho))
      · exact Or.inr (respects_resume hpos hroom (Or.inr ho))
      · exact Or.inr trivial
  | expired | fallback =>
      rcases List.mem_append.mp ho with ho | ho
      · exact h.respects_fixed ho
      · rw [List.mem_singleton] at ho
        exact Or.inr (ho ▸ trivial)
  | reject =>
      simp only [Sys.rejected, List.mem_append, List.mem_singleton] at ho
      rcases ho with ho | (ho | rfl) | ho | rfl
      · exact h.respects_fixed ho
      · exact Or.inr (respects_register ho)
      · exact Or.inr trivial
      · exact Or.inr (respects_delEpoll ho)
      · exact Or.inr trivial
  | suspend _ hcurr =>
      have htwo := h.discipline.two_le_length hcurr
      simp only [Sys.suspended, List.mem_append, List.mem_cons, List.not_mem_nil,
        or_false] at ho
      rcases ho with ho | (ho | rfl) | rfl | ho
      · exact h.respects_fixed ho
      · exact Or.inr (respects_register ho)
      · exact Or.inr trivial
      · exact Or.inr trivial
      · exact Or.inr (respects_yield htwo hle ho)
  | callback =>
      rcases List.mem_append.mp ho with ho | ho
      · exact Or.inl ho
      · rw [List.mem_singleton] at ho
        exact Or.inr (ho ▸ trivial)
  | finish _ hcurr =>
      have htwo := h.discipline.two_le_length hcurr
      simp only [Sys.finished, List.mem_append, List.mem_cons, List.not_mem_nil,
        or_false] at ho
      rcases ho with ho | rfl | ho
      · exact Or.inl ho
      · exact Or.inr trivial
      · exact Or.inr (respects_yield htwo hle ho)
  | close | eventloop =>
      rcases List.mem_append.mp ho with ho | ho
      · exact Or.inl ho
      · rw [List.mem_singleton] at ho
        exact Or.inr (ho ▸ trivial)
  | self =>
      rcases List.mem_append.mp ho with ho | ho
      · exact Or.inl ho
      · rw [List.mem_singleton] at ho
        exact Or.inr (ho ▸ h.respects_curr)
  | iterate hcurr hpc hset =>
      obtain ⟨seg, htrace, hobs, -⟩ := h.iterate_trace hpc hset _
      rw [htrace] at ho
      simp only [List.mem_append, List.mem_singleton, List.mem_map] at ho
      rcases ho with ho | ((rfl | ho) | rfl) | ⟨f, -, rfl⟩
      · exact Or.inl ho
      · exact Or.inr trivial
      · obtain ⟨f, -, rfl | rfl⟩ := hobs o ho <;> exact Or.inr trivial
      · exact Or.inr trivial
      · exact Or.inr trivial
  | wake =>
      have hroom : s.callstack.length ≤ n := by
        simpa [Sys.woken] using hle'
      simp only [Sys.woken, List.mem_append, List.mem_cons, List.not_mem_nil,
        or_false] at ho
      rcases ho with ho | (rfl | ho) | ho | rfl
      · exact Or.inl ho
      · exact Or.inr trivial
      · exact Or.inr (respects_resume hpos hroom ho)
      · exact Or.inr (respects_delEpoll ho)
      · exact Or.inr trivial

end Steps

/-- With fewer tasks than the stack has entries, every run stays in bounds. -/
theorem Sys.Reached.stackInBounds {ok : Sys → Act → Prop} {tick : Nat} {size : Int}
    {s : Sys} (h : Sys.Reached ok tick size s) (hsize : size < kMaxCallStack) :
    s.StackInBounds := by
  have hall : ∀ o ∈ s.trace, o.ofCreation tick ∨ o.respects size.toNat := by
    refine h.induction
      (P := fun s => ∀ o ∈ s.trace, o.ofCreation tick ∨ o.respects size.toNat) ?_ ?_
    · exact fun o ho => Or.inl (init_trace ho)
    · intro u a v _ hinv _ htr hP o ho
      rcases htr.respects hinv ho with ho | hr
      · exact hP o ho
      · exact Or.inr hr
  unfold kMaxCallStack at hsize
  refine ⟨?_, h.inv.discipline.length_pos, ?_⟩
  · intro i hi
    unfold kMaxCallStack
    rcases hall _ hi with hc | ⟨h0, hn⟩
    · simp only [Obs.ofCreation, Bool.decide_or, Bool.or_eq_true, decide_eq_true_eq] at hc
      omega
    · omega
  · intro size' hy
    rcases hall _ hy with hc | h2
    · simp only [Obs.ofCreation, decide_eq_true_eq] at hc
      omega
    · exact h2

/-- As long as a task waits, user code that has control can start it. -/
theorem Inv.step_newTask {n : Nat} {s : Sys} (h : Inv n s) {c : CoId} {ph : Phase}
    (hcurr : s.curr = some c) (hpc : s.pc c = .user ph) (hidle : s.pool.working < n)
    (attr : TaskAttr) :
    ∃ t < n, s.step (.newTask attr) = some (s.spawned c ph t attr) := by
  obtain ⟨free, hchain, -, -, hcount⟩ := h.pool.free
  cases hfree : s.pool.free with
  | none =>
      rw [hfree] at hchain
      rw [hchain.of_none] at hcount
      simp only [List.length_nil] at hcount
      omega
  | some t =>
      refine ⟨t, (h.pool.of_free hfree).1, ?_⟩
      simp [Sys.step, hcurr, hpc, h.newTask_eq hpc hfree]

/-- Nested `coroutine_new_task` calls reach every depth that the pool allows. -/
theorem exists_nested (tick : Nat) (size : Int) {k : Nat} (hk : k ≤ size.toNat) :
    ∃ s, Sys.Reached always tick size s ∧ s.callstack.length = k + 1 ∧
      s.pool.working = k ∧ (∃ c ph, s.curr = some c ∧ s.pc c = .user ph) ∧
      (0 < k → .index k ∈ s.trace) := by
  induction k with
  | zero =>
      refine ⟨Sys.init tick size, Reaches.refl _, ?_, init_working .., ?_, by simp⟩
      · rw [init_callstack]
        rfl
      · exact ⟨.main, .main, by rw [Sys.curr, init_callstack]; rfl, init_pc_main ..⟩
  | succ k ih =>
      obtain ⟨s, hs, hlen, hwork, ⟨c, ph, hcurr, hpc⟩, -⟩ := ih (by omega)
      obtain ⟨t, -, hstep⟩ := hs.inv.step_newTask hcurr hpc (by omega) plainAttr
      refine ⟨_, hs.snoc trivial hstep, ?_, ?_, ⟨.worker t, .fn, ?_, ?_⟩, ?_⟩
      · simp [Sys.spawned, hlen]
      · simp [Sys.spawned, hwork]
      · simp [Sys.curr, Sys.spawned]
      · simp [Sys.pc, Sys.spawned]
      · intro _
        simp [Sys.spawned, hlen]

/-- All runs of a thread keep within the call stack exactly when the pool, as the
options size it, has fewer tasks than the stack has entries. -/
theorem callstack_inBounds_iff (option : Int) :
    (∀ tick s, Sys.Reached always tick (Sys.taskPerThread option) s → s.StackInBounds) ↔
      Sys.taskPerThread option < kMaxCallStack := by
  constructor
  · intro hall
    by_contra hlarge
    have hlarge' : kMaxCallStack ≤ (Sys.taskPerThread option).toNat := by omega
    obtain ⟨s, hs, -, -, -, hindex⟩ := exists_nested 0 (Sys.taskPerThread option) hlarge'
    have := ((hall 0 s hs).1 _ (hindex (by decide))).2
    omega
  · intro hsize tick s hs
    exact hs.stackInBounds hsize

/-- With the default options the 128th nested `coroutine_new_task` call writes
behind the end of the stack. -/
theorem callstack_overflow_default :
    ∃ s, Sys.Reached always 1000 (Sys.taskPerThread 0) s ∧ .index 128 ∈ s.trace ∧
      ¬ s.StackInBounds := by
  obtain ⟨s, hs, -, -, -, hindex⟩ := exists_nested 1000 (Sys.taskPerThread 0)
    (k := kMaxCallStack) (by decide)
  refine ⟨s, hs, hindex (by decide), fun hbounds => ?_⟩
  exact absurd (hbounds.1 _ (hindex (by decide))).2 (by decide)

end Libcr
