import Libcr.Scheduler.Trace

/-!
# No dangling wake-up targets

The poll items and the timer item of a `poll_inner` call live as long as the
call. The kernel keeps pointers to the former and the timer lists link the
latter. In every reached state all of these belong to calls that have not
returned, so the event loop never follows a pointer into a call that has.
-/

namespace Libcr

/-- The `poll_inner` call `f` has not returned: its coroutine sleeps in it. -/
def Sys.Suspended (s : Sys) (f : FrameId) : Prop :=
  ∃ fr t ph, s.frames f = some fr ∧ fr.coroutine = .worker t ∧
    s.pc (.worker t) = .polling ph f

namespace Inv

variable {n : Nat} {s s' : Sys}

theorem suspended_of_frame (h : Inv n s) {f : FrameId} {fr : PollFrame}
    (hfr : s.frames f = some fr) : s.Suspended f := by
  obtain ⟨t, -, hco, ph, hpoll⟩ := h.frames.owner f fr hfr
  exact ⟨fr, t, ph, hfr, hco, hpoll⟩

theorem suspended_of_mem (h : Inv n s) {f : FrameId} {l : ListId}
    (hf : f ∈ s.lists.seq l) : s.Suspended f := by
  have hlive := h.frames.live_iff f
  rw [(h.frames.linked.mem_iff _ _).mp hf] at hlive
  obtain ⟨fr, hfr⟩ := Option.isSome_iff_exists.mp hlive.symm
  exact h.suspended_of_frame hfr

/-- A call that events of a batch are delivered to is suspended. -/
theorem suspended_of_target (h : Inv n s) {events : Sys.Events}
    (hset : ∀ e ∈ events, (s.epollSet e.1).isSome) {f : FrameId}
    (hf : f ∈ targets s.epollSet events) : s.Suspended f := by
  obtain ⟨e, he, hef⟩ := List.mem_filterMap.mp hf
  obtain ⟨r, fr, hr, hfr⟩ := h.exists_frame hset e he
  rw [hr, Option.map_some, Option.some.injEq] at hef
  exact h.suspended_of_frame (hef ▸ hfr)

end Inv

/-- What a step wakes up was suspended before it. -/
theorem Transition.wakes_suspended {n : Nat} {s s' : Sys} {a : Act}
    (htr : Transition n s a s') (h : Inv n s) :
    ∃ os, s'.trace = s.trace ++ os ∧ ∀ o ∈ os, o.quiet = true ∨
      ∃ f, s.Suspended f ∧ (o = .delivered f ∨ o = .activated f ∨ o = .processed f) := by
  by_cases ha : a.ofLoop = false
  · obtain ⟨os, htrace, hrec⟩ := htr.records h
    exact ⟨os, htrace, fun o ho => Or.inl (quiet_of_records ha (hrec o ho))⟩
  · cases htr with
    | drained => exact ⟨[], by simp [Sys.setPc, Sys.setCo], by simp⟩
    | iterate hcurr hpc hset =>
        obtain ⟨seg, htrace, hobs, -⟩ := h.iterate_trace hpc hset _
        refine ⟨_, htrace, ?_⟩
        intro o ho
        simp only [List.mem_append, List.mem_singleton, List.mem_map] at ho
        rcases ho with ((rfl | ho) | rfl) | ⟨f, hf, rfl⟩
        · exact Or.inl rfl
        · obtain ⟨f, hf, ho⟩ := hobs o ho
          refine Or.inr ⟨f, h.suspended_of_target hset hf, ?_⟩
          rcases ho with ho | ho
          · exact Or.inl ho
          · exact Or.inr (Or.inl ho)
        · exact Or.inl rfl
        · obtain ⟨fr, hfr⟩ := h.due_live hpc hset hf
          exact Or.inr ⟨f, h.suspended_of_frame hfr, Or.inr (Or.inl rfl)⟩
    | wake hcurr hpc hactive hframe =>
        refine ⟨_, rfl, ?_⟩
        intro o ho
        simp only [List.mem_append, List.mem_cons, List.not_mem_nil, or_false] at ho
        rcases ho with (rfl | rfl | rfl) | ho | rfl
        · exact Or.inr ⟨_, h.suspended_of_frame hframe, Or.inr (Or.inr rfl)⟩
        · exact Or.inl rfl
        · exact Or.inl rfl
        · obtain ⟨fd, r, rfl, -⟩ := mem_delEpoll_obs.mp ho
          exact Or.inl rfl
        · exact Or.inl rfl
    | _ => simp [Act.ofLoop] at ha

/-- No run follows a pointer into a `poll_inner` call that has returned. -/
theorem Sys.Reached.no_dangling {ok : Sys → Act → Prop} {tick : Nat} {size : Int} {s : Sys}
    (h : Sys.Reached ok tick size s) (f : FrameId) : .dangling f ∉ s.trace := by
  refine h.induction (P := fun s => .dangling f ∉ s.trace) ?_ ?_
  · intro hf
    exact absurd (init_trace hf) (by simp [Obs.ofCreation])
  · intro u a v _ hinv _ htr hP hf
    obtain ⟨os, htrace, hobs⟩ := htr.wakes_suspended hinv
    rw [htrace, List.mem_append] at hf
    rcases hf with hf | hf
    · exact hP hf
    · rcases hobs _ hf with hq | ⟨g, -, hg⟩
      · simp [Obs.quiet] at hq
      · simp at hg

/-- In every reached state the registered poll items and the linked timer items
are those of suspended `poll_inner` calls; no pointer to any other has been
followed, and what the next step hands to `prepare_poll_event`, moves to the
active list or processes belongs to a call that is suspended until then. -/
theorem wakeUp_targets_suspended {tick : Nat} {size : Int} {s : Sys}
    (h : Sys.Reached always tick size s) :
    (∀ fd r, s.epollSet fd = some r → s.Suspended r.frame ∧
      ∃ fr p, s.frames r.frame = some fr ∧ fr.fds[r.item]? = some p ∧ p.fd = fd) ∧
    (∀ l f, f ∈ s.lists.seq l → s.Suspended f) ∧
    (∀ f, .dangling f ∉ s.trace) ∧
    ∀ a s', s.step a = some s' → ∃ os, s'.trace = s.trace ++ os ∧
      ∀ f, .delivered f ∈ os ∨ .activated f ∈ os ∨ .processed f ∈ os → s.Suspended f := by
  have hinv := h.inv
  refine ⟨?_, fun l f hf => hinv.suspended_of_mem hf, h.no_dangling, ?_⟩
  · intro fd r hr
    obtain ⟨-, fr, hfr, p, hp, hpfd⟩ := hinv.frames.registered fd r hr
    exact ⟨hinv.suspended_of_frame hfr, fr, p, hfr, hp, hpfd⟩
  · intro a s' hstep
    obtain ⟨os, htrace, hobs⟩ := (hinv.step_transition hstep).wakes_suspended hinv
    refine ⟨os, htrace, ?_⟩
    intro f hf
    -- The entry at hand is not a quiet one, and it names `f`.
    have hsus : ∀ o, o ∈ os → o.quiet = false →
        (o = .delivered f ∨ o = .activated f ∨ o = .processed f) → s.Suspended f := by
      intro o ho hq hof
      rcases hobs o ho with hq' | ⟨g, hg, hog⟩
      · rw [hq] at hq'
        simp at hq'
      · rcases hof with rfl | rfl | rfl <;> simp at hog <;> exact hog ▸ hg
    rcases hf with hf | hf | hf
    · exact hsus _ hf rfl (Or.inl rfl)
    · exact hsus _ hf rfl (Or.inr (Or.inl rfl))
    · exact hsus _ hf rfl (Or.inr (Or.inr rfl))

/-- A task that polls the descriptor 5 is what its registration points to. -/
theorem wakeUp_targets_suspended_polling :
    ∃ s r, exec Sys.step (Sys.init 1000 1)
        [.newTask plainAttr, .poll (plainPoll 5 10 1000)] = some s ∧
      s.epollSet 5 = some r ∧ s.Suspended r.frame := by
  obtain ⟨s, hs, hreached⟩ := exec_reached 1000 1
    [.newTask plainAttr, .poll (plainPoll 5 10 1000)] rfl
  have hset : s.epollSet 5 = some ⟨0, 0, 1⟩ := by
    have hmap := congrArg (Option.map fun s => s.epollSet 5) hs
    exact (Option.some.inj hmap).symm
  exact ⟨s, _, hs, hset, ((wakeUp_targets_suspended hreached).1 5 _ hset).1⟩

end Libcr
