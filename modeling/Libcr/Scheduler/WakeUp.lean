import Mathlib.Data.List.Count
import Libcr.Scheduler.Armed
import Libcr.Scheduler.WakeTargets

/-!
# Every suspension is ended once

A suspension starts when `poll_inner` yields and ends when the event loop calls
the process function of its timer item, which resumes the coroutine. Over a whole
run the two are balanced. Inside one iteration of the event loop an item enters
the active list at most once, because its first event or its time has come, and
the loop that empties the list processes what was put there and nothing else.
-/

namespace Libcr

/-- The suspension an entry of the trace is about. -/
def Obs.ofFrame : Obs → Option FrameId
  | .suspended f | .activated f | .processed f => some f
  | _ => none

/-- The action calls `epoll_wait`. -/
def Act.waits : Act → Bool
  | .iterate .. => true
  | _ => false

theorem count_of_off {os : List Obs} (hoff : ∀ o ∈ os, o.ofFrame = none) {o : Obs}
    {f : FrameId} (ho : o.ofFrame = some f) : os.count o = 0 := by
  rw [List.count_eq_zero]
  intro hmem
  rw [hoff o hmem] at ho
  simp at ho

/-- A step between two calls of `epoll_wait` that records `os`, seen from the
suspensions. -/
inductive WakeStep (s s' : Sys) : List Obs → Prop
  /-- The step is about something else. -/
  | other {os : List Obs} (hframes : s'.frames = s.frames)
      (hactive : s'.lists.seq .active = s.lists.seq .active)
      (hoff : ∀ o ∈ os, o.ofFrame = none) : WakeStep s s' os
  /-- A suspension starts. -/
  | suspend {fr : PollFrame} {os₁ os₂ : List Obs}
      (hframes : s'.frames = Function.update s.frames s.nextFrame (some fr))
      (hnext : s'.nextFrame = s.nextFrame + 1)
      (hactive : s'.lists.seq .active = s.lists.seq .active)
      (hoff₁ : ∀ o ∈ os₁, o.ofFrame = none) (hoff₂ : ∀ o ∈ os₂, o.ofFrame = none) :
      WakeStep s s' (os₁ ++ .suspended s.nextFrame :: os₂)
  /-- The first suspension of the active list ends. -/
  | wake {f : FrameId} {os : List Obs} (hlive : (s.frames f).isSome)
      (hframes : s'.frames = Function.update s.frames f none)
      (hactive : s.lists.seq .active = f :: s'.lists.seq .active)
      (hoff : ∀ o ∈ os, o.ofFrame = none) : WakeStep s s' (.processed f :: os)

section Steps

variable {n : Nat} {s s' : Sys} {a : Act}

theorem ofFrame_register {call : PollCall} {o : Obs} (ho : o ∈ (s.register call).2.1) :
    o.ofFrame = none := by
  obtain ⟨k, fd, rfl, -⟩ := mem_addEpoll_obs ho
  rfl

theorem ofFrame_delEpoll {f : FrameId} {fds : List PollFd} {set : Fd → Option Registration}
    {o : Obs} (ho : o ∈ (delEpoll f fds set).2) : o.ofFrame = none := by
  obtain ⟨fd, r, rfl, -⟩ := mem_delEpoll_obs.mp ho
  rfl

/-- Every step but an iteration is one of these. -/
theorem Transition.wakeStep (htr : Transition n s a s') (ha : a.waits = false) :
    ∃ os, s'.trace = s.trace ++ os ∧ WakeStep s s' os := by
  cases htr with
  | full => exact ⟨[], by simp, .other rfl rfl (by simp)⟩
  | drained => exact ⟨[], by simp [Sys.setPc, Sys.setCo], .other rfl rfl (by simp)⟩
  | iterate => simp [Act.waits] at ha
  | expired | fallback =>
      simp only [Sys.emit, Sys.fixed, List.append_assoc]
      exact ⟨_, rfl, .other rfl rfl (by simp [Obs.ofFrame])⟩
  | reject =>
      simp only [Sys.rejected, Sys.fixed, List.append_assoc]
      refine ⟨_, rfl, .other rfl rfl ?_⟩
      intro o ho
      simp only [List.mem_append, List.mem_cons, List.not_mem_nil, or_false] at ho
      rcases ho with (rfl | rfl) | ho | rfl | ho | rfl
      · rfl
      · rfl
      · exact ofFrame_register ho
      · rfl
      · exact ofFrame_delEpoll ho
      · rfl
  | @suspend ph t call last =>
      refine ⟨[Obs.index ((s.callstack.length : Int) - 1),
        Obs.fixed t s.now (s.tasks t) (s.fix t call).1 (s.fix t call).2.2] ++
        (s.register call).2.1 ++ [Obs.clock call.tick] ++ Obs.suspended s.nextFrame ::
        [Obs.yield s.callstack.length, Obs.index ((s.callstack.length : Int) - 2),
          Obs.index ((s.callstack.length : Int) - 1)], ?_, ?_⟩
      · simp [Sys.suspended, Sys.fixed]
      · refine .suspend rfl rfl ?_ ?_ (by simp [Obs.ofFrame])
        · simp [Sys.suspended, LinkedSeqs.append]
        · intro o ho
          simp only [List.mem_append, List.mem_cons, List.not_mem_nil, or_false] at ho
          rcases ho with ((rfl | rfl) | ho) | rfl
          · rfl
          · rfl
          · exact ofFrame_register ho
          · rfl
  | @wake f rest fr t ph hcurr hpc hactive hframe =>
      refine ⟨Obs.processed f :: ([Obs.index ((s.callstack.length : Int) - 1),
        Obs.index s.callstack.length] ++ ((delEpoll f fr.fds s.epollSet).2 ++
        [Obs.polled (.worker t) fr.raiseCnt none fr.revents])), rfl,
        .wake (by simp [hframe]) rfl ?_ ?_⟩
      · simp [Sys.woken, LinkedSeqs.unlink, hactive]
      · intro o ho
        simp only [List.mem_append, List.mem_cons, List.not_mem_nil, or_false] at ho
        rcases ho with (rfl | rfl) | ho | rfl
        · rfl
        · rfl
        · exact ofFrame_delEpoll ho
        · rfl
  | _ => exact ⟨_, rfl, .other rfl rfl (by simp [Obs.ofFrame])⟩

/-- What a step between two calls of `epoll_wait` does for one suspension: it starts it,
or ends it and takes it off the active list, or neither. -/
theorem WakeStep.counts {os : List Obs} (hstep : WakeStep s s' os) (h : Inv n s)
    (f : FrameId) :
    os.count (.processed f) + (s'.frames f).isSome.toNat =
        (s.frames f).isSome.toNat + os.count (.suspended f) ∧
      (os.count (.suspended f) = 0 ∨
        os.count (.suspended f) = 1 ∧ f = s.nextFrame ∧ f < s'.nextFrame) ∧
      (s.lists.seq .active).count f =
        os.count (.processed f) + (s'.lists.seq .active).count f ∧
      os.count (.activated f) = 0 := by
  cases hstep with
  | other hframes hactive hoff =>
      rw [hframes, hactive, count_of_off hoff rfl, count_of_off hoff rfl,
        count_of_off hoff rfl]
      simp
  | @suspend fr os₁ os₂ hframes hnext hactive hoff₁ hoff₂ =>
      have hoff : ∀ {o : Obs}, o.ofFrame = some f →
          (os₁ ++ .suspended s.nextFrame :: os₂).count o =
            if .suspended s.nextFrame = o then 1 else 0 := by
        intro o ho
        rw [List.count_append, List.count_cons, count_of_off hoff₁ ho, count_of_off hoff₂ ho]
        simp
      rw [hoff rfl, hoff rfl, hoff rfl, hframes, hactive, hnext]
      by_cases hf : f = s.nextFrame
      · subst hf
        have hnone := h.frames.fresh s.nextFrame (Nat.le_refl _)
        simp [hnone]
      · simp [Function.update_of_ne hf, Ne.symm hf]
  | @wake g os₂ hlive hframes hactive hoff =>
      have hcount : ∀ {o : Obs}, o.ofFrame = some f →
          (.processed g :: os₂).count o = if .processed g = o then 1 else 0 := by
        intro o ho
        rw [List.count_cons, count_of_off hoff ho]
        simp
      rw [hcount rfl, hcount rfl, hcount rfl, hframes, hactive]
      by_cases hf : f = g
      · subst hf
        simp [hlive, Nat.add_comm]
      · simp [Function.update_of_ne hf, Ne.symm hf]

end Steps

namespace Inv

variable {n : Nat} {s : Sys} {events : Sys.Events}

theorem iterate_live (h : Inv n s) (hpc : s.pc .main = .loopHead)
    (hset : ∀ e ∈ events, (s.epollSet e.1).isSome) (tick : Nat) (f : FrameId) :
    ((s.iterate events tick).frames f).isSome = (s.frames f).isSome := by
  cases hfr : s.frames f with
  | none => rw [h.iterate_dead hpc hset tick hfr]
  | some fr =>
      obtain ⟨fr', hfr', -⟩ := h.iterate_frame hpc hset tick hfr
      rw [hfr']
      rfl

/-- What an iteration records: no suspension starts or ends, and an item is activated by
its first event and by its time. -/
theorem iterate_counts (h : Inv n s) (hpc : s.pc .main = .loopHead)
    (hset : ∀ e ∈ events, (s.epollSet e.1).isSome) (tick : Nat) :
    ∃ seg, (s.iterate events tick).trace = s.trace ++ seg ∧ ∀ f,
      seg.count (.processed f) = 0 ∧ seg.count (.suspended f) = 0 ∧
      seg.count (.activated f) =
        (if f ∈ targets s.epollSet events then 1 else 0) + (s.due events tick).count f := by
  obtain ⟨seg, htrace, hobs, hcount⟩ := h.iterate_trace hpc hset tick
  refine ⟨_, htrace, ?_⟩
  intro f
  have hinj : Function.Injective Obs.activated := fun _ _ heq => Obs.activated.inj heq
  have hnone : ∀ o, (∀ g, o ≠ .delivered g) → (∀ g, o ≠ .activated g) → seg.count o = 0 := by
    intro o hd ha
    rw [List.count_eq_zero]
    intro ho
    obtain ⟨g, -, rfl | rfl⟩ := hobs o ho
    · exact hd g rfl
    · exact ha g rfl
  refine ⟨?_, ?_, ?_⟩
  · have hmap : ((s.due events tick).map Obs.activated).count (.processed f) = 0 := by
      simp [List.count_eq_zero]
    simp [List.count_append, hnone (.processed f), hmap]
  · have hmap : ((s.due events tick).map Obs.activated).count (.suspended f) = 0 := by
      simp [List.count_eq_zero]
    simp [List.count_append, hnone (.suspended f), hmap]
  · have hmap : ((s.due events tick).map Obs.activated).count (.activated f) =
        (s.due events tick).count f := List.count_map_of_injective _ _ hinj f
    simp [List.count_append, hcount, hmap]

end Inv

/-- A suspension starts at most once, and it was ended unless it is live. -/
structure Sys.Balanced (s : Sys) (f : FrameId) : Prop where
  ended : s.trace.count (.processed f) + (s.frames f).isSome.toNat =
    s.trace.count (.suspended f)
  once : s.trace.count (.suspended f) ≤ 1
  fresh : s.nextFrame ≤ f → s.trace.count (.suspended f) = 0

/-- Every step keeps the balance. -/
theorem Transition.balanced {n : Nat} {s s' : Sys} {a : Act} (htr : Transition n s a s')
    (h : Inv n s) {f : FrameId} (hbal : s.Balanced f) : s'.Balanced f := by
  have hnext := htr.nextFrame_le h
  obtain ⟨hended, honce, hfresh⟩ := hbal
  obtain ⟨os, htrace, hlife, hstart⟩ : ∃ os, s'.trace = s.trace ++ os ∧
      os.count (.processed f) + (s'.frames f).isSome.toNat =
        (s.frames f).isSome.toNat + os.count (.suspended f) ∧
      (os.count (.suspended f) = 0 ∨
        os.count (.suspended f) = 1 ∧ f = s.nextFrame ∧ f < s'.nextFrame) := by
    cases ha : a.waits with
    | false =>
        obtain ⟨os, htrace, hstep⟩ := htr.wakeStep ha
        obtain ⟨hlife, hstart, -⟩ := hstep.counts h f
        exact ⟨os, htrace, hlife, hstart⟩
    | true =>
        cases htr with
        | @iterate events tick hcurr hpc hset =>
            obtain ⟨seg, htrace, hcount⟩ := h.iterate_counts hpc hset tick
            obtain ⟨hp, hs, -⟩ := hcount f
            refine ⟨seg, htrace, ?_, Or.inl hs⟩
            rw [hp, hs, h.iterate_live hpc hset tick f]
            omega
        | _ => simp [Act.waits] at ha
  refine ⟨?_, ?_, ?_⟩
  · rw [htrace, List.count_append, List.count_append]
    omega
  · rw [htrace, List.count_append]
    rcases hstart with hzero | ⟨hone, hf, -⟩
    · omega
    · have := hfresh (Nat.le_of_eq hf.symm)
      omega
  · intro hf
    rw [htrace, List.count_append, hfresh (Nat.le_trans hnext hf)]
    rcases hstart with hzero | ⟨-, -, hlt⟩
    · omega
    · exact absurd hf (Nat.not_le.mpr hlt)

theorem Sys.Reached.balanced {ok : Sys → Act → Prop} {tick : Nat} {size : Int} {s : Sys}
    (h : Sys.Reached ok tick size s) (f : FrameId) : s.Balanced f := by
  refine h.induction (P := fun s => s.Balanced f) ?_ fun _ _ _ _ hinv _ htr hbal =>
    htr.balanced hinv hbal
  have hnone : ∀ o : Obs, o.ofFrame = some f → (Sys.init tick size).trace.count o = 0 := by
    intro o ho
    rw [List.count_eq_zero]
    intro hmem
    have hcreation := init_trace hmem
    cases o <;> simp [Obs.ofFrame, Obs.ofCreation] at ho hcreation
  refine ⟨?_, ?_, fun _ => hnone _ rfl⟩
  · rw [hnone _ rfl, hnone _ rfl, init_frames]
    rfl
  · rw [hnone _ rfl]
    exact Nat.zero_le 1

/-- The iteration has a reason to wake the call: one of its events is delivered, or its
time has come. -/
def Sys.wakes (s : Sys) (events : Sys.Events) (tick : Nat) (f : FrameId) : Bool :=
  decide (f ∈ targets s.epollSet events) ||
    (s.frames f).any fun fr => decide (fr.expire ≤ tick)

section Iterations

variable {n : Nat} {s s₁ s₂ : Sys} {events : Sys.Events} {tick : Nat}

/-- Only live calls are woken. -/
theorem Inv.live_of_wakes (h : Inv n s) (hset : ∀ e ∈ events, (s.epollSet e.1).isSome)
    {f : FrameId} (hf : s.wakes events tick f = true) : (s.frames f).isSome := by
  rw [Sys.wakes, Bool.or_eq_true, decide_eq_true_eq] at hf
  rcases hf with hf | hf
  · obtain ⟨fr, -, -, hfr, -⟩ := h.suspended_of_target hset hf
    simp [hfr]
  · cases hfr : s.frames f with
    | none => simp [hfr] at hf
    | some fr => rfl

/-- An iteration activates what it has a reason to wake, once. -/
theorem Inv.iterate_wakes (h : Inv n s) (hpc : s.pc .main = .loopHead)
    (hset : ∀ e ∈ events, (s.epollSet e.1).isSome) (harmed : s.Armed)
    (hpaced : s.Paced (.iterate events tick)) :
    ∃ seg, (s.iterate events tick).trace = s.trace ++ seg ∧ ∀ f,
      seg.count (.processed f) = 0 ∧
      seg.count (.activated f) = (s.wakes events tick f).toNat ∧
      ((s.iterate events tick).lists.seq .active).count f =
        (s.wakes events tick f).toNat := by
  obtain ⟨seg, htrace, hcount⟩ := h.iterate_counts hpc hset tick
  refine ⟨seg, htrace, ?_⟩
  intro f
  obtain ⟨hp, -, ha⟩ := hcount f
  have hprep := h.prepared hpc hset
  have hwakes : (s.wakes events tick f).toNat =
      (if f ∈ targets s.epollSet events then 1 else 0) + (s.due events tick).count f := by
    rw [(h.nodup_due hpc hset harmed hpaced).count]
    have hdue := h.mem_due_iff hpc hset harmed hpaced f
    by_cases hf : f ∈ targets s.epollSet events
    · simp [Sys.wakes, hf, hdue]
    · cases hfr : s.frames f with
      | none => simp [Sys.wakes, hf, hdue, hfr]
      | some fr => by_cases hle : fr.expire ≤ tick <;> simp [Sys.wakes, hf, hdue, hfr, hle]
  refine ⟨hp, by rw [ha, hwakes], ?_⟩
  rw [h.iterate_active, List.count_append, (hprep.linked.nodup .active).count, hwakes]
  simp only [hprep.active]

/-- The loop that empties the active list, up to some point. -/
theorem drain_run (h : Inv n s₁)
    (hrun : Reaches Sys.step (fun _ a => a.waits = false) s₁ s₂) :
    Inv n s₂ ∧ ∃ seg, s₂.trace = s₁.trace ++ seg ∧ ∀ f,
      (s₁.lists.seq .active).count f =
        seg.count (.processed f) + (s₂.lists.seq .active).count f ∧
      seg.count (.activated f) = 0 := by
  refine Reaches.invariant (P := fun u => Inv n u ∧ ∃ seg, u.trace = s₁.trace ++ seg ∧ ∀ f,
      (s₁.lists.seq .active).count f =
        seg.count (.processed f) + (u.lists.seq .active).count f ∧
      seg.count (.activated f) = 0) hrun ⟨h, [], by simp, by simp⟩ ?_
  rintro u a v - ⟨hu, seg, htrace, hcount⟩ ha huv
  have htr := hu.step_transition huv
  obtain ⟨os, hos, hstep⟩ := htr.wakeStep ha
  refine ⟨htr.inv hu, seg ++ os, by rw [hos, htrace, List.append_assoc], ?_⟩
  intro f
  obtain ⟨hactive, hactivated⟩ := hcount f
  obtain ⟨-, -, hactive', hactivated'⟩ := hstep.counts hu f
  rw [List.count_append, List.count_append]
  omega

/-- A whole iteration, up to the next call of `epoll_wait`. -/
theorem Inv.iteration (h : Inv n s) (hpc : s.pc .main = .loopHead)
    (hset : ∀ e ∈ events, (s.epollSet e.1).isSome) (harmed : s.Armed)
    (hpaced : s.Paced (.iterate events tick)) (h₁ : Inv n (s.iterate events tick))
    (hrun : Reaches Sys.step (fun _ a => a.waits = false) (s.iterate events tick) s₂)
    (hhead : s₂.pc .main = .loopHead) :
    Inv n s₂ ∧ ∃ seg, s₂.trace = s.trace ++ seg ∧ ∀ f,
      seg.count (.activated f) = (s.wakes events tick f).toNat ∧
      seg.count (.processed f) = (s.wakes events tick f).toNat := by
  obtain ⟨seg₁, htrace₁, hcount₁⟩ := h.iterate_wakes hpc hset harmed hpaced
  obtain ⟨h₂, seg₂, htrace₂, hcount₂⟩ := drain_run h₁ hrun
  refine ⟨h₂, seg₁ ++ seg₂, by rw [htrace₂, htrace₁, List.append_assoc], ?_⟩
  intro f
  obtain ⟨hp₁, ha₁, hlist₁⟩ := hcount₁ f
  obtain ⟨hlist₂, ha₂⟩ := hcount₂ f
  rw [h₂.frames.active (by simp [hhead]), List.count_nil] at hlist₂
  rw [List.count_append, List.count_append]
  omega

end Iterations

/-- In a run whose clock readings keep pace, every suspension starts once and has been
ended once unless it is live. In an iteration of the event loop, up to the next call of
`epoll_wait`, the calls that an event is delivered to or whose time has come enter the
active list once and are processed once, all others not at all, and no suspension that
starts during the iteration is ended in it. -/
theorem wakeUp_exactly_once {tick₀ : Nat} {size : Int} {s : Sys} (hpos : 0 < tick₀)
    (hlt : tick₀ < 2 ^ 63) (h : Sys.Reached Sys.Paced tick₀ size s) :
    (∀ f, s.trace.count (.suspended f) ≤ 1 ∧
      s.trace.count (.processed f) + (s.frames f).isSome.toNat =
        s.trace.count (.suspended f)) ∧
    ∀ events tick s₁ s₂, s.Paced (.iterate events tick) →
      s.step (.iterate events tick) = some s₁ →
      Reaches Sys.step (fun _ a => a.waits = false) s₁ s₂ → s₂.pc .main = .loopHead →
      ∃ seg, s₂.trace = s.trace ++ seg ∧ ∀ f,
        (s.wakes events tick f = true → seg.count (.activated f) = 1 ∧
          seg.count (.processed f) = 1 ∧ s₂.frames f = none) ∧
        (s.wakes events tick f = false → seg.count (.activated f) = 0 ∧
          seg.count (.processed f) = 0 ∧ (s.Suspended f → s₂.Suspended f)) ∧
        (.suspended f ∈ seg → seg.count (.processed f) = 0) := by
  refine ⟨fun f => ⟨(h.balanced f).once, (h.balanced f).ended⟩, ?_⟩
  intro events tick s₁ s₂ hpaced hstep hrun hhead
  have hinv := h.inv
  have hreached : Sys.Reached always tick₀ size s₂ :=
    ((Reaches.mono h fun _ _ _ => trivial).snoc trivial hstep).trans
      (hrun.mono fun _ _ _ => trivial)
  have htr := hinv.step_transition hstep
  have hinv₁ := htr.inv hinv
  cases htr with
  | iterate hcurr hpc hset =>
      obtain ⟨hinv₂, seg, htrace, hcount⟩ :=
        hinv.iteration hpc hset (h.armed hpos hlt) hpaced hinv₁ hrun hhead
      refine ⟨seg, htrace, ?_⟩
      intro f
      obtain ⟨hactivated, hprocessed⟩ := hcount f
      -- The balances before and after the iteration settle which calls are left.
      obtain ⟨hended, honce, -⟩ := h.balanced f
      obtain ⟨hended₂, honce₂, -⟩ := hreached.balanced f
      rw [htrace, List.count_append, List.count_append, hprocessed] at hended₂
      rw [htrace, List.count_append] at honce₂
      rw [hactivated, hprocessed]
      refine ⟨?_, ?_, ?_⟩
      · intro hw
        rw [hw, Bool.toNat_true] at hended₂ ⊢
        refine ⟨rfl, rfl, ?_⟩
        cases hfr : s₂.frames f with
        | none => rfl
        | some fr =>
            simp only [hfr, Option.isSome_some, Bool.toNat_true] at hended₂
            omega
      · intro hw
        rw [hw, Bool.toNat_false] at hended₂ ⊢
        refine ⟨rfl, rfl, ?_⟩
        rintro ⟨fr, -, -, hfr, -⟩
        simp only [hfr, Option.isSome_some, Bool.toNat_true] at hended
        cases hfr₂ : s₂.frames f with
        | none =>
            simp only [hfr₂, Option.isSome_none, Bool.toNat_false] at hended₂
            omega
        | some fr₂ => exact hinv₂.suspended_of_frame hfr₂
      · intro hmem
        have hstarted := List.count_pos_iff.mpr hmem
        cases hw : s.wakes events tick f with
        | false => rfl
        | true =>
            rw [hinv.live_of_wakes hset hw, Bool.toNat_true] at hended
            omega

/-- A thread whose task polls for `timeout` ms at the clock reading `tick`, and then enters
the event loop. -/
def asleepSys (timeout : Int) (tick : Nat) : Sys :=
  (((Sys.init 1000 1).newTask .main .main plainAttr).1.pollInner (.worker 0) .fn 0
    (plainPoll 5 timeout tick)).enterEventloop tick

/-- A task whose timer has run out is woken and polls again with a timeout of zero. Its
first suspension is ended in the iteration, the second is not. -/
theorem wakeUp_exactly_once_again :
    ∃ s₁ s₂ seg, Sys.Reached Sys.Paced 1000 1 (asleepSys 0 1000) ∧
      (asleepSys 0 1000).step (.iterate [] 1000) = some s₁ ∧
      exec Sys.step s₁ [.drain, .poll (plainPoll 5 0 1000), .drain] = some s₂ ∧
      s₂.trace = (asleepSys 0 1000).trace ++ seg ∧
      seg.count (.processed 0) = 1 ∧ seg.count (.processed 1) = 0 ∧ s₂.Suspended 1 := by
  have hreached : Sys.Reached Sys.Paced 1000 1 (asleepSys 0 1000) := by
    have hspawn : (Sys.init 1000 1).step (.newTask plainAttr) =
        some ((Sys.init 1000 1).newTask .main .main plainAttr).1 := rfl
    refine ((Reaches.refl _ |>.snoc trivial hspawn).snoc (a := .poll (plainPoll 5 0 1000)) ?_
      rfl).snoc (a := .eventloop 1000) trivial rfl
    intro t ht _
    obtain rfl : 0 = t := CoId.worker.inj (Option.some.inj ht)
    exact ⟨by decide, by decide⟩
  have hstep : (asleepSys 0 1000).step (.iterate [] 1000) =
      some ((asleepSys 0 1000).iterate [] 1000) := rfl
  obtain ⟨s₂, hs₂, hp⟩ := Option.map_eq_some_iff.mp (show
    (exec Sys.step ((asleepSys 0 1000).iterate [] 1000)
      [.drain, .poll (plainPoll 5 0 1000), .drain]).map (fun s =>
        decide (s.pc .main = .loopHead) && (s.frames 1).isSome) = some true by
    decide +kernel)
  rw [Bool.and_eq_true, decide_eq_true_eq] at hp
  have hrun : Reaches Sys.step (fun _ a => a.waits = false)
      ((asleepSys 0 1000).iterate [] 1000) s₂ := exec_reaches (by simp [Act.waits]) hs₂
  obtain ⟨seg, htrace, hseg⟩ := (wakeUp_exactly_once (by decide) (by decide) hreached).2 []
    1000 _ s₂ ⟨by decide, by decide⟩ hstep hrun hp.1
  obtain ⟨fr, hfr⟩ := Option.isSome_iff_exists.mp hp.2
  have hinv : Inv 1 s₂ := (drain_run ((hreached.inv.step_transition hstep).inv
    hreached.inv) hrun).1
  exact ⟨_, s₂, seg, hreached, hstep, hs₂, htrace, ((hseg 0).1 rfl).2.1,
    ((hseg 1).2.1 rfl).2.1, hinv.suspended_of_frame hfr⟩

/-- The slots that `takeAllTimeout` visits lie behind the beginning of the array. -/
theorem Wheel.slot_nonneg_of_visited {w : Wheel} (hidx : 0 ≤ w.startIdx)
    (hlt : w.startIdx + w.size < 2 ^ 63) {cnt : Nat} (hcnt : cnt ≤ w.size) {l : ListId}
    (hl : l ∈ visitedSlots w cnt) : ∃ k : Int, 0 ≤ k ∧ l = .slot k := by
  obtain ⟨i, hi, rfl⟩ := List.mem_map.mp hl
  rw [List.mem_range] at hi
  refine ⟨_, ?_, rfl⟩
  unfold Wheel.slotIndex
  rw [toInt64_of_range (by omega) (by omega)]
  exact Int.tmod_nonneg _ (by omega)

/-- While no item is linked behind the beginning of the array of slots, an iteration
without events finds nothing to do. -/
theorem Inv.exec_idle {n : Nat} {s : Sys} (h : Inv n s) (hcurr : s.curr = some .main)
    (hpc : s.pc .main = .loopHead) (hslots : ∀ k : Int, 0 ≤ k → s.lists.seq (.slot k) = [])
    (hstart : 0 < s.wheel.start) (hidx : 0 ≤ s.wheel.startIdx)
    (hlt : s.wheel.startIdx + s.wheel.size < 2 ^ 63) (tick : Nat) :
    exec Sys.step s [.iterate [] tick, .drain] = some { s with
      now := tick
      wheel := (takeAllTimeout s.wheel s.lists tick .timeout).1
      trace := s.trace ++ [.epollWait, .clock tick] } := by
  have hlists : (takeAllTimeout s.wheel s.lists tick .timeout).2 = s.lists := by
    obtain ⟨cnt, hcnt, heq⟩ := takeAllTimeout_lists s.wheel s.lists tick .timeout
    rw [heq, Wheel.restart_of_pos hstart]
    apply LinkedSeqs.spliceAll_of_empty
    intro l hl
    obtain ⟨k, hk, rfl⟩ := Wheel.slot_nonneg_of_visited hidx hlt hcnt hl
    exact hslots k hk
  have hdue : s.due [] tick = [] := by
    change (takeAllTimeout s.wheel s.lists tick .timeout).2.seq .timeout = []
    rw [hlists, h.seq_timeout]
  have hactive := h.frames.active (by simp [hpc])
  have hiterate : s.iterate [] tick = { s.setPc .main .draining with
      now := tick
      wheel := (takeAllTimeout s.wheel s.lists tick .timeout).1
      trace := s.trace ++ [.epollWait, .clock tick] } := by
    have hprepared : s.prepared [] = s.emit [.epollWait] := rfl
    rw [h.iterate_eq, hdue, hprepared]
    simp [Sys.emit, Sys.setPc, Sys.setCo, hlists, LinkedSeqs.splice_of_empty h.seq_timeout]
  -- The main coroutine goes to the inner loop and comes straight back.
  have hmain : { s.coroutines .main with pc := .loopHead } = s.coroutines .main := by
    rw [← hpc]
    rfl
  have hstep : s.step (.iterate [] tick) = some (s.iterate [] tick) := by
    simp [Sys.step, hcurr, hpc]
  have hdrain : (s.iterate [] tick).step .drain = some { s with
      now := tick
      wheel := (takeAllTimeout s.wheel s.lists tick .timeout).1
      trace := s.trace ++ [.epollWait, .clock tick] } := by
    rw [hiterate]
    have hcurr' : s.callstack.getLast? = some .main := hcurr
    simp [Sys.step, Sys.curr, Sys.pc, Sys.setPc, Sys.setCo, hcurr', Sys.drain, hactive, hmain]
  simp [exec, hstep, hdrain]

/-- A task polls for 10 ms when the clock is `2^31 - 10` ms past the start of the wheel, and
the event loop runs at that time and 10 ms later. The time of the task has come, but its
item lies in front of the array of slots and is not found. -/
theorem wakeUp_missed :
    ∃ s s₂, exec Sys.step (Sys.init 1000 1)
        [.newTask plainAttr, .poll (plainPoll 5 10 (1000 + 2 ^ 31 - 10)),
          .eventloop (1000 + 2 ^ 31 - 10), .iterate [] (1000 + 2 ^ 31 - 10), .drain] =
        some s ∧
      exec Sys.step s [.iterate [] (1000 + 2 ^ 31), .drain] = some s₂ ∧
      s.wakes [] (1000 + 2 ^ 31) 0 = true ∧ s₂.pc .main = .loopHead ∧
      .activated 0 ∉ s₂.trace ∧ .processed 0 ∉ s₂.trace ∧ s₂.Suspended 0 := by
  have hasleep : exec Sys.step (Sys.init 1000 1)
      [.newTask plainAttr, .poll (plainPoll 5 10 (1000 + 2 ^ 31 - 10)),
        .eventloop (1000 + 2 ^ 31 - 10)] = some (asleepSys 10 (1000 + 2 ^ 31 - 10)) := rfl
  have hslots : ∀ k : Int, 0 ≤ k →
      (asleepSys 10 (1000 + 2 ^ 31 - 10)).lists.seq (.slot k) = [] := by
    intro k hk
    have hlists : (asleepSys 10 (1000 + 2 ^ 31 - 10)).lists =
        LinkedSeqs.empty.append (.slot (-23648)) 0 := rfl
    have hne : ListId.slot k ≠ .slot (-23648) := by
      rw [Ne, ListId.slot.injEq]
      omega
    rw [hlists]
    exact Function.update_of_ne hne _ _
  have hinv : ∀ {acts : List Act} {s : Sys},
      exec Sys.step (Sys.init 1000 1) acts = some s → Inv 1 s := by
    intro acts s hs
    have hreached : Sys.Reached always 1000 1 s := exec_reaches (fun _ _ _ => trivial) hs
    exact hreached.inv
  have hs := exec_trans hasleep ((hinv hasleep).exec_idle rfl rfl hslots (by decide)
    (by decide) (by decide) (1000 + 2 ^ 31 - 10))
  have hmissed := (hinv hs).exec_idle rfl rfl hslots (by decide) (by decide) (by decide)
    (1000 + 2 ^ 31)
  refine ⟨_, _, hs, hmissed, rfl, rfl, by decide, by decide, ?_⟩
  exact (hinv (exec_trans hs hmissed)).suspended_of_frame rfl

end Libcr
