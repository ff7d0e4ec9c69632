import Libcr.Scheduler.Execution
import Libcr.Scheduler.PoolConservation
import Libcr.Scheduler.Deadline
import Libcr.Scheduler.WakeOrder

/-!
# Coming to rest

Once the code of the tasks on the call stack returns, control goes back to the thread's
own flow of control: each function needs one return, and one more if its timeout callback
is called. A suspended call is due at most `kMaxTimeoutMs` after the clock reading it was
made at. One iteration of the event loop therefore is enough to wake every sleeper, and
if all that is woken returns, nothing is left: no task executes, no call is suspended, no
list and no registration is in use.
-/

namespace Libcr

/-- The returns that the user code of a task has to make in the given phase. -/
def Task.returnsIn (task : Task) : Option Phase → Nat
  | some .fn => if task.timeout = true ∧ task.attr.timeout ≠ .null then 2 else 1
  | some .callback => 1
  | _ => 0

theorem Task.returnsIn_le (task : Task) (ph : Option Phase) : task.returnsIn ph ≤ 2 := by
  unfold Task.returnsIn
  split
  · split <;> omega
  · omega
  · omega

namespace Sys

/-- The returns that the user code of a coroutine on the call stack has to make. -/
def returnsLeft (s : Sys) : CoId → Nat
  | .main => 0
  | .worker t => (s.tasks t).returnsIn (s.pc (.worker t)).phase

/-- The returns that bring control back to the thread's own flow of control. -/
def returnsDue (s : Sys) : Nat := (s.callstack.map s.returnsLeft).sum

/-- What a coroutine has to return from depends on its phase and its task. -/
theorem returnsLeft_congr {s s' : Sys} {c : CoId} (hphase : (s'.pc c).phase = (s.pc c).phase)
    (htask : ∀ t, c = .worker t → s'.tasks t = s.tasks t) :
    s'.returnsLeft c = s.returnsLeft c := by
  cases c with
  | main => rfl
  | worker t =>
      change (s'.tasks t).returnsIn _ = (s.tasks t).returnsIn _
      rw [hphase, htask t rfl]

end Sys

section Returning

variable {n : Nat} {s : Sys}

/-- The coroutines below a running one are others. -/
theorem Inv.ne_of_mem_dropLast (h : Inv n s) {c d : CoId} (hcurr : s.curr = some c)
    (hd : d ∈ s.callstack.dropLast) : d ≠ c := by
  have hnodup := h.discipline.nodup
  rw [← List.dropLast_append_getLast? c hcurr, List.nodup_append] at hnodup
  exact hnodup.2.2 d hd c (List.mem_singleton_self c)

theorem Sys.returnsDue_eq {c : CoId} (hcurr : s.curr = some c) :
    s.returnsDue = (s.callstack.dropLast.map s.returnsLeft).sum + s.returnsLeft c := by
  rw [Sys.returnsDue]
  nth_rewrite 1 [← List.dropLast_append_getLast? c hcurr]
  simp

/-- A pooled coroutine that runs is in the function or the callback of its task. -/
theorem Inv.user_of_curr (h : Inv n s) {t : TaskId} (hcurr : s.curr = some (.worker t)) :
    t < n ∧ (s.pc (.worker t) = .user .fn ∨ s.pc (.worker t) = .user .callback) := by
  have ht := h.discipline.mem_main t (List.mem_of_getLast? hcurr)
  have htop := h.discipline.top _ hcurr
  have hfits := h.discipline.worker_fits t ht
  refine ⟨ht, ?_⟩
  cases hpc : s.pc (.worker t) with
  | user ph => cases ph <;> simp_all [Pc.ofWorker]
  | _ => simp_all [Pc.isRunning, Pc.ofWorker]

/-- What a return leaves alone. -/
structure Returned (s s' : Sys) : Prop where
  frames : s'.frames = s.frames
  lists : s'.lists = s.lists
  epollSet : s'.epollSet = s.epollSet
  draining : s.pc .main = .draining → s'.pc .main = .draining

/-- The coroutine on top of the call stack can return, and is then one return nearer to
the bottom of the stack. -/
theorem Inv.ret_step (h : Inv n s) {t : TaskId} (hcurr : s.curr = some (.worker t)) :
    ∃ s', s.step .ret = some s' ∧ Inv n s' ∧ Returned s s' ∧
      s.returnsDue = s'.returnsDue + 1 := by
  obtain ⟨ht, hpc⟩ := h.user_of_curr hcurr
  have hsome : ∃ s', s.step .ret = some s' := by
    have htask := h.paired.task t ht
    rcases hpc with hpc | hpc
    · exact ⟨_, by simp [Sys.step, hcurr, hpc, htask]; rfl⟩
    · exact ⟨_, by simp [Sys.step, hcurr, hpc, htask]; rfl⟩
  obtain ⟨s', hs'⟩ := hsome
  have htr := h.step_transition hs'
  refine ⟨s', hs', htr.inv h, ?_⟩
  clear hs'
  cases htr with
  | @callback u hu hcurr' hpc' htimeout hnull =>
      obtain rfl := Sys.worker_unique hcurr' hcurr
      have hrest : ∀ c ∈ s.callstack.dropLast,
          (s.callingBack u).returnsLeft c = s.returnsLeft c := by
        intro c hc
        have hne := h.ne_of_mem_dropLast hcurr hc
        apply Sys.returnsLeft_congr
        · rw [Sys.pc_callingBack, Function.update_of_ne hne]
        · intro _ _
          rfl
      have htop : s.returnsLeft (.worker u) = 2 := by
        simp [Sys.returnsLeft, hpc', Pc.phase, Task.returnsIn, htimeout, hnull]
      have htop' : (s.callingBack u).returnsLeft (.worker u) = 1 := by
        simp [Sys.returnsLeft, Sys.pc_callingBack, Pc.phase, Task.returnsIn]
      refine ⟨⟨rfl, rfl, rfl, ?_⟩, ?_⟩
      · intro hmain
        rw [Sys.pc_callingBack, Function.update_of_ne (by simp), hmain]
      · rw [Sys.returnsDue_eq hcurr, Sys.returnsDue_eq (s := s.callingBack u) hcurr, htop, htop']
        change _ = (s.callstack.dropLast.map (s.callingBack u).returnsLeft).sum + 1 + 1
        rw [List.map_congr_left hrest]
  | @finish u ph last hu hcurr' hpc' hlast hph =>
      obtain rfl := Sys.worker_unique hcurr' hcurr
      have hlastne := h.ne_of_mem_dropLast hcurr (List.mem_of_getLast? hlast)
      have hrest : ∀ c ∈ s.callstack.dropLast,
          (s.finished last u).returnsLeft c = s.returnsLeft c := by
        intro c hc
        have hne := h.ne_of_mem_dropLast hcurr hc
        apply Sys.returnsLeft_congr
        · rw [Sys.pc_finished, phase_update]
          · rw [Function.update_of_ne hne]
          · rw [Pc.phase_landed, Function.update_of_ne hlastne]
        · intro v hv
          have hvu : v ≠ u := by
            rintro rfl
            exact hne hv
          simp [Sys.finished, Function.update_of_ne hvu]
      have htop : s.returnsLeft (.worker u) = 1 := by
        rcases hph with ⟨rfl, hnot⟩ | rfl
        · simp only [Sys.returnsLeft, hpc', Pc.phase, Task.returnsIn, if_neg hnot]
        · simp only [Sys.returnsLeft, hpc', Pc.phase, Task.returnsIn]
      refine ⟨⟨rfl, rfl, rfl, ?_⟩, ?_⟩
      · intro hmain
        rw [Sys.pc_finished]
        by_cases hm : CoId.main = last
        · rw [← hm, Function.update_self, hmain]
          rfl
        · rw [Function.update_of_ne hm, Function.update_of_ne (by simp), hmain]
      · rw [Sys.returnsDue_eq hcurr, htop, Sys.returnsDue]
        change _ = (s.callstack.dropLast.map (s.finished last u).returnsLeft).sum + 1
        rw [List.map_congr_left hrest]

/-- When control is with the thread's own flow of control there is nothing above it. -/
theorem Inv.callstack_of_main (h : Inv n s) (hcurr : s.curr = some .main) :
    s.callstack = [.main] := by
  have hbottom := h.discipline.bottom
  have hsplit := List.dropLast_append_getLast? _ hcurr
  cases hinit : s.callstack.dropLast with
  | nil => rw [← hsplit, hinit, List.nil_append]
  | cons c rest =>
      rw [← hsplit, hinit] at hbottom
      obtain rfl : c = .main := by simpa using hbottom
      exact absurd rfl (h.ne_of_mem_dropLast hcurr (by rw [hinit]; exact List.mem_cons_self))

/-- Control is with the thread's own flow of control, and there is nothing to return from,
or with a pooled coroutine. -/
theorem Inv.curr_cases (h : Inv n s) :
    s.curr = some .main ∧ s.returnsDue = 0 ∨ ∃ t, s.curr = some (.worker t) := by
  have hne : s.callstack ≠ [] := List.ne_nil_of_mem h.discipline.main_mem
  have hcurr : s.curr = some (s.callstack.getLast hne) := List.getLast?_eq_some_getLast hne
  cases htop : s.callstack.getLast hne with
  | main =>
      rw [htop] at hcurr
      refine Or.inl ⟨hcurr, ?_⟩
      simp [Sys.returnsDue, h.callstack_of_main hcurr, Sys.returnsLeft]
  | worker t => exact Or.inr ⟨t, htop ▸ hcurr⟩

/-- If the code on the call stack returns, control comes back to the thread's own flow of
control. -/
theorem Inv.unwind (h : Inv n s) :
    ∃ s', exec Sys.step s (List.replicate s.returnsDue .ret) = some s' ∧ Inv n s' ∧
      s'.callstack = [.main] ∧ Returned s s' := by
  generalize hk : s.returnsDue = k
  induction k generalizing s with
  | zero =>
      cases h.curr_cases with
      | inl hmain => exact ⟨s, rfl, h, h.callstack_of_main hmain.1, ⟨rfl, rfl, rfl, id⟩⟩
      | inr hworker =>
          obtain ⟨t, hcurr⟩ := hworker
          obtain ⟨s', -, -, -, hdue⟩ := h.ret_step hcurr
          omega
  | succ k ih =>
      cases h.curr_cases with
      | inl hmain => omega
      | inr hworker =>
          obtain ⟨t, hcurr⟩ := hworker
          obtain ⟨s₁, hs₁, h₁, hret₁, hdue⟩ := h.ret_step hcurr
          obtain ⟨s', hs', h', hstack, hret⟩ := ih h₁ (by omega)
          refine ⟨s', ?_, h', hstack, ?_⟩
          · rw [List.replicate_succ, exec, hs₁, Option.bind_some, hs']
          · exact ⟨hret.frames.trans hret₁.frames, hret.lists.trans hret₁.lists,
              hret.epollSet.trans hret₁.epollSet, fun hm => hret.draining (hret₁.draining hm)⟩

/-- No coroutine of the pool needs more than two returns. -/
theorem Inv.returnsDue_le (h : Inv n s) : s.returnsDue ≤ 2 * (s.callstack.length - 1) := by
  have hbottom := h.discipline.bottom
  have hsum : ∀ cs : List CoId, (cs.map s.returnsLeft).sum ≤ 2 * cs.length := by
    intro cs
    induction cs with
    | nil => simp
    | cons c rest ih =>
        have hle : s.returnsLeft c ≤ 2 := by
          cases c with
          | main => exact Nat.zero_le 2
          | worker t => exact Task.returnsIn_le _ _
        simp only [List.map_cons, List.sum_cons, List.length_cons]
        omega
  unfold Sys.returnsDue
  cases hstack : s.callstack with
  | nil => simp
  | cons c rest =>
      rw [hstack] at hbottom
      obtain rfl : c = .main := by simpa using hbottom
      have hrest := hsum rest
      simpa [Sys.returnsLeft] using hrest

end Returning

/-- From every state that a thread reaches, control comes back to its own flow of control
when the code on the call stack returns: after one return for each function, and one more
for each timeout callback that is called, the call stack holds nothing else. No suspended
call, timer or registration is touched by it. -/
theorem unwinds {ok : Sys → Act → Prop} {tick : Nat} {size : Int} {s : Sys}
    (h : Sys.Reached ok tick size s) :
    s.returnsDue ≤ 2 * (s.callstack.length - 1) ∧
      ∃ s', exec Sys.step s (List.replicate s.returnsDue .ret) = some s' ∧
        s'.callstack = [.main] ∧ s'.frames = s.frames ∧ s'.lists = s.lists ∧
        s'.epollSet = s.epollSet := by
  obtain ⟨s', hexec, -, hstack, hret⟩ := h.inv.unwind
  exact ⟨h.inv.returnsDue_le, s', hexec, hstack, hret.frames, hret.lists, hret.epollSet⟩

/-- Two nested tasks come back after two returns. -/
theorem unwinds_nested :
    ∃ s s', exec Sys.step (Sys.init 1000 2) [.newTask plainAttr, .newTask lateAttr] = some s ∧
      s.callstack.length = 3 ∧ exec Sys.step s (List.replicate s.returnsDue .ret) = some s' ∧
      s'.callstack = [.main] := by
  obtain ⟨s, hs, htest⟩ := Option.map_eq_some_iff.mp (show
    (exec Sys.step (Sys.init 1000 2) [.newTask plainAttr, .newTask lateAttr]).map (fun s =>
      decide (s.callstack.length = 3)) = some true by
    decide +kernel)
  have hreached : Sys.Reached always 1000 2 s := exec_reaches (fun _ _ _ => trivial) hs
  obtain ⟨-, s', hexec, hstack, -⟩ := unwinds hreached
  exact ⟨s, s', hs, of_decide_eq_true htest, hexec, hstack⟩

/-- A thread in which nothing is in use. -/
structure Sys.AtRest (n : Nat) (s : Sys) : Prop where
  callstack : s.callstack = [.main]
  idle : ∀ t < n, s.pc (.worker t) = .waiting
  working : s.pool.working = 0
  frames : ∀ f, s.frames f = none
  lists : ∀ l, s.lists.seq l = []
  epollSet : ∀ fd, s.epollSet fd = none

section Rest

variable {n : Nat} {s : Sys}

/-- A thread without executing tasks has nothing in use. -/
theorem Inv.atRest (h : Inv n s) (hidle : ∀ t < n, s.executing t = false) : s.AtRest n := by
  have hwaiting : ∀ t < n, s.pc (.worker t) = .waiting := by
    intro t ht
    by_contra hne
    have hexec := (h.executing_iff ht).mpr hne
    rw [hidle t ht] at hexec
    simp at hexec
  have hframes : ∀ f, s.frames f = none := by
    intro f
    by_contra hsome
    obtain ⟨fr, hfr⟩ := Option.ne_none_iff_exists'.mp hsome
    obtain ⟨t, ht, -, ph, hpoll⟩ := h.frames.owner f fr hfr
    rw [hwaiting t ht] at hpoll
    simp at hpoll
  refine ⟨?_, hwaiting, ?_, hframes, ?_, ?_⟩
  · cases h.curr_cases with
    | inl hmain => exact h.callstack_of_main hmain.1
    | inr hworker =>
        obtain ⟨t, hcurr⟩ := hworker
        obtain ⟨ht, hpc⟩ := h.user_of_curr hcurr
        rw [hwaiting t ht] at hpc
        simp at hpc
  · have hnone : (List.range n).countP s.executing = 0 := by
      rw [List.countP_eq_zero]
      intro t ht
      simp [hidle t (List.mem_range.mp ht)]
    rw [h.working_eq, hnone]
    rfl
  · intro l
    rw [List.eq_nil_iff_forall_not_mem]
    intro f hf
    have hlive := h.frames.live_iff f
    rw [(h.frames.linked.mem_iff _ _).mp hf, hframes f] at hlive
    simp at hlive
  · intro fd
    by_contra hsome
    obtain ⟨r, hr⟩ := Option.ne_none_iff_exists'.mp hsome
    obtain ⟨-, fr, hfr, -⟩ := h.frames.registered fd r hr
    rw [hframes] at hfr
    simp at hfr

/-- A thread in its own flow of control without suspended calls has no executing tasks. -/
theorem Inv.idle_of_no_frames (h : Inv n s) (hstack : s.callstack = [.main])
    (hframes : ∀ f, s.frames f = none) : ∀ t < n, s.executing t = false := by
  intro t ht
  have hoff : (s.pc (.worker t)).onStack = false := by
    have hmem := h.discipline.mem_iff t ht
    rw [hstack] at hmem
    simpa using hmem
  have hfits := h.discipline.worker_fits t ht
  unfold Sys.executing
  cases hpc : s.pc (.worker t) with
  | polling ph f =>
      obtain ⟨fr, hfr, -⟩ := h.frames.asleep t ht ph f hpc
      rw [hframes] at hfr
      simp at hfr
  | waiting => rfl
  | _ => simp_all [Pc.onStack, Pc.ofWorker]

/-- The actions of a thread whose code only returns. -/
def Act.settles : Act → Bool
  | .drain | .ret => true
  | _ => false

/-- The loop that empties the active list, when everything that it resumes returns. -/
theorem Inv.settle (h : Inv n s) (hstack : s.callstack = [.main])
    (hpc : s.pc .main = .draining) :
    ∃ acts s', (∀ a ∈ acts, a.settles = true) ∧ exec Sys.step s acts = some s' ∧ Inv n s' ∧
      s'.callstack = [.main] ∧ s'.pc .main = .loopHead ∧
      ∀ f, s'.frames f = if f ∈ s.lists.seq .active then none else s.frames f := by
  have hcurr : s.curr = some .main := by rw [Sys.curr, hstack]; rfl
  generalize hactive : s.lists.seq .active = active
  induction active generalizing s with
  | nil =>
      have hstep : s.step .drain = some s.drain := by simp [Sys.step, hcurr, hpc]
      have htr := h.drain_transition hcurr hpc
      refine ⟨[.drain], s.drain, by simp [Act.settles], by simp [exec, hstep], htr.inv h, ?_⟩
      have hdrain : s.drain = s.setPc .main .loopHead := by simp [Sys.drain, hactive]
      rw [hdrain]
      refine ⟨hstack, ?_, ?_⟩
      · simp [Sys.pc, Sys.setPc, Sys.setCo]
      · intro f
        simp [Sys.setPc, Sys.setCo]
  | cons f rest ih =>
      obtain ⟨fr, t, ph, hframe, ht, hco, hpoll⟩ := h.active_head hactive
      have hwoken := h.drain_wake hactive hframe ht hco hpoll
      have hstep : s.step .drain = some (s.woken f fr t ph) := by
        simp [Sys.step, hcurr, hpc, hwoken]
      have h₁ := (h.step_transition hstep).inv h
      -- the resumed coroutine returns to the loop
      obtain ⟨s₂, hexec₂, h₂, hstack₂, hret⟩ := h₁.unwind
      have hpc₂ : s₂.pc .main = .draining := by
        apply hret.draining
        rw [Sys.pc_woken, Function.update_of_ne (by simp), hpc]
      have hactive₂ : s₂.lists.seq .active = rest := by
        rw [hret.lists]
        simp [Sys.woken, LinkedSeqs.unlink, hactive]
      obtain ⟨acts, s', hacts, hexec, h', hstack', hpc', hframes⟩ :=
        ih h₂ hstack₂ hpc₂ (by rw [Sys.curr, hstack₂]; rfl) hactive₂
      refine ⟨.drain :: (List.replicate (s.woken f fr t ph).returnsDue .ret ++ acts), s', ?_, ?_,
        h', hstack', hpc', ?_⟩
      · intro a ha
        rw [List.mem_cons, List.mem_append] at ha
        rcases ha with rfl | ha | ha
        · rfl
        · rw [List.eq_of_mem_replicate ha]
          rfl
        · exact hacts a ha
      · rw [exec, hstep, Option.bind_some]
        exact exec_trans hexec₂ hexec
      · intro g
        rw [hframes g, hret.frames]
        by_cases hg : g = f
        · subst hg
          simp [Sys.woken]
        · simp [Sys.woken, hg]

/-- The code returns while a coroutine of the pool runs, and the loop goes on while none does. -/
theorem Inv.settles_unique (h : Inv n s) {a b : Act} (ha : a.settles = true)
    (hb : b.settles = true) (hstep : (s.step a).isSome = true)
    (hstep' : (s.step b).isSome = true) : a = b := by
  -- what `drain` needs on top of the call stack, `ret` does not allow there
  have hmain : (s.step .drain).isSome = true → s.curr = some .main := by
    intro hdrain
    obtain ⟨s', hs'⟩ := Option.isSome_iff_exists.mp hdrain
    cases h.step_transition hs' with
    | drained hcurr => exact hcurr
    | wake hcurr => exact hcurr
  have hworker : (s.step .ret).isSome = true → s.curr ≠ some .main := by
    intro hret hcurr
    obtain ⟨s', hs'⟩ := Option.isSome_iff_exists.mp hret
    cases h.step_transition hs' with
    | callback _ hcurr' => simp [hcurr'] at hcurr
    | finish _ hcurr' => simp [hcurr'] at hcurr
  cases a with
  | drain =>
      cases b with
      | drain => rfl
      | ret => exact absurd (hmain hstep) (hworker hstep')
      | _ => cases hb
  | ret =>
      cases b with
      | ret => rfl
      | drain => exact absurd (hmain hstep') (hworker hstep)
      | _ => cases hb
  | _ => cases ha

/-- At the head of the event loop nothing returns and the active list has been emptied. -/
theorem Sys.settled {a : Act} (hstack : s.callstack = [.main]) (hpc : s.pc .main = .loopHead)
    (ha : a.settles = true) : s.step a = none := by
  have hcurr : s.curr = some .main := by rw [Sys.curr, hstack]; rfl
  cases a with
  | drain => simp [Sys.step, hcurr, hpc]
  | ret => simp [Sys.step, hcurr, hpc]
  | _ => cases ha

end Rest

section Overdue

variable {n : Nat} {s : Sys}

/-- Every suspended call is due at most `kMaxTimeoutMs` after a reading of the clock. -/
def Sys.DueSoon (s : Sys) : Prop :=
  ∀ f fr, s.frames f = some fr →
    ∃ reading : Nat, .clock reading ∈ s.trace ∧ (fr.expire : Int) ≤ reading + kMaxTimeoutMs

/-- The timeout given to `poll_inner` is an `int`. -/
def Act.IntTimeout : Act → Prop
  | .poll call => -2 ^ 31 ≤ call.timeout ∧ call.timeout < 2 ^ 31
  | _ => True

instance : DecidablePred Act.IntTimeout := fun a =>
  match a with
  | .poll call => inferInstanceAs (Decidable (-2 ^ 31 ≤ call.timeout ∧ call.timeout < 2 ^ 31))
  | .newTask _ | .ret | .close _ | .self | .eventloop _ | .iterate _ _ | .drain =>
      inferInstanceAs (Decidable True)

/-- The conditions on the clock readings, and on the arguments of `poll_inner`. -/
def Sys.Timely (s : Sys) (a : Act) : Prop := s.Paced a ∧ a.IntTimeout

theorem clampTimeout_ge {timeout : Int} (h : -2 ^ 31 ≤ timeout) :
    -2 ^ 31 ≤ clampTimeout timeout := by
  unfold clampTimeout kMaxTimeoutMs
  split <;> omega

theorem fixCoroutineTimeout_ge (task : Task) (now : Nat) {timeout : Int}
    (h : -2 ^ 31 ≤ timeout) : -2 ^ 31 ≤ (fixCoroutineTimeout task now timeout).2.1 := by
  unfold fixCoroutineTimeout
  split
  · exact clampTimeout_ge h
  · split
    · exact zero_inInt32.1
    · dsimp only
      split
      · exact zero_inInt32.1
      · apply clampTimeout_ge
        split
        · omega
        · split <;> omega

/-- The time that a call sets is at most `kMaxTimeoutMs` after its reading of the clock. -/
theorem Sys.expireAt_le {t : TaskId} {call : PollCall} (hint : -2 ^ 31 ≤ call.timeout)
    (hlt : s.expireAt t call < 2 ^ 63) :
    (s.expireAt t call : Int) ≤ call.tick + kMaxTimeoutMs := by
  have hle := clampTimeout_le (s.fix t call).2.1
  have hge : -2 ^ 31 ≤ clampTimeout (s.fix t call).2.1 :=
    clampTimeout_ge (fixCoroutineTimeout_ge (s.tasks t) s.now hint)
  unfold Sys.expireAt toUInt64 at hlt ⊢
  omega

theorem Transition.dueSoon {s' : Sys} {a : Act} (htr : Transition n s a s') (h : Inv n s)
    (htimely : s.Timely a) (hsoon : s.DueSoon) : s'.DueSoon := by
  obtain ⟨os, htrace, -⟩ := htr.records h
  have hold : ∀ f fr, s.frames f = some fr →
      ∃ reading : Nat, .clock reading ∈ s'.trace ∧ (fr.expire : Int) ≤ reading + kMaxTimeoutMs := by
    intro f fr hfr
    obtain ⟨reading, hmem, hle⟩ := hsoon f fr hfr
    exact ⟨reading, by rw [htrace]; exact List.mem_append_left _ hmem, hle⟩
  intro f fr hfr
  cases htr with
  | @suspend ph t call last ht hcurr hpc hlast hfix hreg hacc =>
      by_cases hf : f = s.nextFrame
      · subst hf
        simp only [Sys.suspended, Function.update_self, Option.some_inj] at hfr
        subst hfr
        refine ⟨call.tick, by simp [Sys.suspended], ?_⟩
        exact Sys.expireAt_le htimely.2.1 (htimely.1 t hcurr hacc).1
      · simp only [Sys.suspended, Function.update_of_ne hf] at hfr
        exact hold f fr hfr
  | iterate hcurr hpc hset =>
      obtain ⟨fr₀, hfr₀, -, -, hexpire, -⟩ := h.iterate_origin hpc hset _ hfr
      rw [hexpire]
      exact hold f fr₀ hfr₀
  | @wake g rest gr t ph =>
      by_cases hf : f = g
      · simp [Sys.woken, hf] at hfr
      · simp only [Sys.woken, Function.update_of_ne hf] at hfr
        exact hold f fr hfr
  | _ => exact hold f fr hfr

theorem Sys.Reached.dueSoon {tick : Nat} {size : Int} (h : Sys.Reached Sys.Timely tick size s) :
    s.DueSoon := by
  refine h.induction (P := Sys.DueSoon) ?_ fun _ _ _ _ hinv hok htr hsoon =>
    htr.dueSoon hinv hok hsoon
  intro f fr hfr
  rw [init_frames] at hfr
  simp at hfr

end Overdue

/-- A thread comes to rest. From the head of the event loop, one iteration, with whatever
events, that reads the clock at least `kMaxTimeoutMs` after every reading so far wakes every
suspended call. If everything that it resumes returns, there is one run to follow; it brings
the loop back to its head with no task executing, no call suspended, and every list and the
epoll set empty. -/
theorem comes_to_rest {tick₀ : Nat} {size : Int} {s s₁ : Sys} (hpos : 0 < tick₀)
    (hlt : tick₀ < 2 ^ 63) (h : Sys.Reached Sys.Timely tick₀ size s) {events : Sys.Events}
    {tick : Nat} (hpaced : s.Paced (.iterate events tick))
    (hlate : ∀ reading : Nat, .clock reading ∈ s.trace → reading + kMaxTimeoutMs ≤ tick)
    (hstep : s.step (.iterate events tick) = some s₁) :
    ∃ acts s', (∀ a ∈ acts, a.settles = true) ∧ exec Sys.step s₁ acts = some s' ∧
      s'.pc .main = .loopHead ∧ s'.AtRest size.toNat ∧
      ∀ acts' s'', (∀ a ∈ acts', a.settles = true) → exec Sys.step s₁ acts' = some s'' →
        acts' <+: acts := by
  have hinv := h.inv
  have harmed : s.Armed := Sys.Reached.armed hpos hlt (h.mono fun _ _ hok => hok.1)
  have htr := hinv.step_transition hstep
  have hinv₁ := htr.inv hinv
  cases htr with
  | iterate hcurr hpc hset =>
      have hrest := hinv.iterate_rest hpc hset tick
      have hstack₁ : (s.iterate events tick).callstack = [.main] := by
        rw [hrest]
        exact hinv.callstack_of_main hcurr
      have hpc₁ : (s.iterate events tick).pc .main = .draining := by
        rw [hrest]
        simp [Sys.pc, Sys.setPc, Sys.setCo]
      obtain ⟨acts, s', hacts, hexec, hinv', hstack', hpc', hframes⟩ :=
        hinv₁.settle hstack₁ hpc₁
      -- every call that was suspended has an event or has been found due
      have hnone : ∀ f, s'.frames f = none := by
        intro f
        rw [hframes f]
        split
        · rfl
        · next hnot =>
            by_contra hsome
            obtain ⟨fr', hfr'⟩ := Option.ne_none_iff_exists'.mp hsome
            obtain ⟨fr, hfr, -⟩ := hinv.iterate_origin hpc hset tick hfr'
            obtain ⟨reading, hmem, hle⟩ := h.dueSoon f fr hfr
            have hbound := hlate reading hmem
            apply hnot
            rw [hinv.iterate_active]
            by_cases htarget : f ∈ targets s.epollSet events
            · exact List.mem_append_left _ (((hinv.prepared hpc hset).active f).mpr htarget)
            · apply List.mem_append_right
              exact (hinv.mem_due_iff hpc hset harmed hpaced f).mpr
                ⟨htarget, fr, hfr, by omega⟩
      refine ⟨acts, s', hacts, hexec, hpc',
        hinv'.atRest (hinv'.idle_of_no_frames hstack' hnone), ?_⟩
      intro acts' s'' hacts' hexec'
      exact exec_prefix (P := fun a => a.settles = true)
        (fun u a v hu huv => (hu.step_transition huv).inv hu)
        (fun u a b hu ha hb hua hub => hu.settles_unique ha hb hua hub)
        (fun a ha => Sys.settled hstack' hpc' ha) hinv₁ hexec hacts hexec' hacts'

/-- A test for the conditions. -/
def Sys.timelyTest (s : Sys) (a : Act) : Bool := s.pacedTest a && decide a.IntTimeout

theorem timely_of_timelyTest (s : Sys) (a : Act) (h : s.timelyTest a = true) : s.Timely a := by
  rw [Sys.timelyTest, Bool.and_eq_true, decide_eq_true_eq] at h
  exact ⟨paced_of_pacedTest s a h.1, h.2⟩

/-- Three sleepers, of which one has an event, are at rest 10 ms later. -/
theorem comes_to_rest_three :
    ∃ s s₁ acts s', exec Sys.step (Sys.init 1000 3) threeAsleep = some s ∧
      s.pool.working = 3 ∧ s.step (.iterate [(5, 1)] 1010) = some s₁ ∧
      exec Sys.step s₁ acts = some s' ∧ s'.pool.working = 0 := by
  obtain ⟨s, hs, hrest⟩ := Option.bind_eq_some_iff.mp (show
    (exec (tested Sys.timelyTest Sys.step) (Sys.init 1000 3) threeAsleep).bind (fun s =>
      (s.step (.iterate [(5, 1)] 1010)).map fun _ =>
        decide (s.pool.working = 3) && s.pacedTest (.iterate [(5, 1)] 1010) &&
          (clocksOf s.trace).all fun reading => decide (reading + kMaxTimeoutMs ≤ (1010 : Nat))) =
      some true by
    decide +kernel)
  obtain ⟨s₁, hs₁, htest⟩ := Option.map_eq_some_iff.mp hrest
  simp only [Bool.and_eq_true, decide_eq_true_eq, List.all_eq_true] at htest
  obtain ⟨⟨hworking, hpaced⟩, hlate⟩ := htest
  obtain ⟨hexec, hreached⟩ :=
    exec_tested (fun u a _ => timely_of_timelyTest u a) (Reaches.refl _) hs
  obtain ⟨acts, s', -, hexec', -, hrest, -⟩ := comes_to_rest (by decide) (by decide) hreached
    (paced_of_pacedTest _ _ hpaced) (fun reading hmem => hlate reading (mem_clocksOf hmem)) hs₁
  exact ⟨s, s₁, acts, s', hexec, hworking, hs₁, hexec', hrest.working⟩

end Libcr
