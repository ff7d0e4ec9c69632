import Libcr.Scheduler.Init

/-!
# What a step records

Steps only append to the trace. The entries that do not stand in the closed form
of a transition are those of the registration loops and of an iteration of the
event loop; the lemmas below say which they can be.
-/

namespace Libcr

/-- The loop that registers descriptors records what it registered. -/
theorem mem_addEpoll_obs {call : PollCall} {f : FrameId} {rest : List PollFd} {i : Nat}
    {set : Fd → Option Registration} {o : Obs} (h : o ∈ (addEpoll call f i rest set).2.1) :
    ∃ k fd, o = .added f k fd ∧ watched rest fd ∧ set fd = none ∧
      ∃ e, (addEpoll call f i rest set).1 fd = some ⟨f, k, e⟩ := by
  induction rest generalizing i set with
  | nil => simp [addEpoll] at h
  | cons p rest ih =>
      have skip : ∀ {set' : Fd → Option Registration}, set' = set →
          o ∈ (addEpoll call f (i + 1) rest set').2.1 →
          ∃ k fd, o = .added f k fd ∧ watched (p :: rest) fd ∧ set fd = none ∧
            ∃ e, (addEpoll call f (i + 1) rest set').1 fd = some ⟨f, k, e⟩ := by
        rintro set' rfl h'
        obtain ⟨k, fd, ho, hw, hnone, e, he⟩ := ih h'
        exact ⟨k, fd, ho, watched_cons.mpr (Or.inr hw), hnone, e, he⟩
      simp only [addEpoll] at h ⊢
      split
      · next hfd =>
          rw [if_pos hfd] at h
          cases hp : set p.fd with
          | some q =>
              simp only [ctlAdd, hp] at h ⊢
              split
              · next hc => simp [hc] at h
              · next hc =>
                  rw [if_neg hc] at h
                  exact skip rfl h
          | none =>
              cases he : call.addErr i with
              | some e =>
                  simp only [ctlAdd, hp, he] at h ⊢
                  split
                  · next hc => simp [hc] at h
                  · next hc =>
                      rw [if_neg hc] at h
                      exact skip rfl h
              | none =>
                  simp only [ctlAdd, hp, he, List.mem_cons] at h ⊢
                  rcases h with rfl | h
                  · refine ⟨i, p.fd, rfl, watched_cons.mpr (Or.inl ⟨hfd, rfl⟩), hp,
                      pollEventToEpoll p.events, ?_⟩
                    exact addEpoll_of_some (Function.update_self ..)
                  · obtain ⟨k, fd, ho, hw, hnone, e, he⟩ := ih h
                    have hne : fd ≠ p.fd := by
                      rintro rfl
                      simp at hnone
                    rw [Function.update_of_ne hne] at hnone
                    exact ⟨k, fd, ho, watched_cons.mpr (Or.inr hw), hnone, e, he⟩
      · next hfd =>
          rw [if_neg hfd] at h
          exact skip rfl h

namespace Inv

variable {n : Nat} {s : Sys}

/-- What an iteration records. -/
theorem iterate_trace (h : Inv n s) (hpc : s.pc .main = .loopHead) {events : Sys.Events}
    (hset : ∀ e ∈ events, (s.epollSet e.1).isSome) (tick : Nat) :
    ∃ seg, (s.iterate events tick).trace =
        s.trace ++ ([Obs.epollWait] ++ seg ++ [Obs.clock tick] ++
          (s.due events tick).map Obs.activated) ∧
      (∀ o ∈ seg, ∃ f ∈ targets s.epollSet events, o = .delivered f ∨ o = .activated f) ∧
      ∀ f, seg.count (.activated f) = if f ∈ targets s.epollSet events then 1 else 0 := by
  obtain ⟨seg, htrace, hobs, hcount⟩ := (h.prepared hpc hset).trace
  refine ⟨seg, ?_, hobs, hcount⟩
  rw [h.iterate_eq]
  simp [htrace, Sys.emit]

/-- The items that were due are those of live calls. -/
theorem due_live (h : Inv n s) (hpc : s.pc .main = .loopHead) {events : Sys.Events}
    (hset : ∀ e ∈ events, (s.epollSet e.1).isSome) {tick : Nat} {f : FrameId}
    (hf : f ∈ s.due events tick) : ∃ fr, s.frames f = some fr := by
  have hp := h.prepared hpc hset
  have hparent := ((h.taken_linked hpc hset tick).mem_iff _ _).mp hf
  have hslot : ∃ l, s.lists.parent f = some l := by
    rcases parent_takeAllTimeout (w := (s.prepared events).wheel) hp.linked tick f with
      heq | ⟨⟨k, hk⟩, -⟩
    · rw [heq, ← hp.linked.mem_iff] at hparent
      simp [h.prepared_seq_timeout hpc hset] at hparent
    · rcases h.prepared_parent hpc hset f with heq | ⟨⟨k', hk'⟩, -⟩
      · exact ⟨_, heq ▸ hk⟩
      · exact ⟨_, hk'⟩
  obtain ⟨l, hl⟩ := hslot
  have hlive := h.frames.live_iff f
  rw [hl] at hlive
  exact Option.isSome_iff_exists.mp hlive.symm

end Inv

/-- The kinds of entries that an action can add to the trace. -/
def Act.records : Act → Obs → Bool
  | .newTask _, .created .. | .newTask _, .called .. | .newTask _, .index _ => true
  | .poll _, .index _ | .poll _, .fixed .. | .poll _, .added .. | .poll _, .clock _
  | .poll _, .suspended _ | .poll _, .yield _ | .poll _, .removed .. | .poll _, .polled .. =>
      true
  | .ret, .called .. | .ret, .freed _ | .ret, .yield _ | .ret, .index _ => true
  | .close _, .closed _ => true
  | .self, .index _ => true
  | .eventloop _, .clock _ => true
  | .iterate .., .epollWait | .iterate .., .delivered _ | .iterate .., .activated _
  | .iterate .., .clock _ => true
  | .drain, .processed _ | .drain, .index _ | .drain, .removed .. | .drain, .polled .. => true
  | _, _ => false

/-- Steps append to the trace what their action can record. -/
theorem Transition.records {n : Nat} {s s' : Sys} {a : Act} (htr : Transition n s a s')
    (h : Inv n s) : ∃ os, s'.trace = s.trace ++ os ∧ ∀ o ∈ os, a.records o := by
  cases htr with
  | full => exact ⟨[], by simp, by simp⟩
  | drained => exact ⟨[], by simp [Sys.setPc, Sys.setCo], by simp⟩
  | expired | fallback =>
      simp only [Sys.emit, Sys.fixed, List.append_assoc]
      exact ⟨_, rfl, by simp [Act.records]⟩
  | reject =>
      simp only [Sys.rejected, Sys.fixed, List.append_assoc]
      refine ⟨_, rfl, ?_⟩
      intro o ho
      simp only [List.mem_append, List.mem_cons, List.not_mem_nil, or_false] at ho
      rcases ho with (rfl | rfl) | ho | rfl | ho | rfl
      · rfl
      · rfl
      · obtain ⟨k, fd, rfl, -⟩ := mem_addEpoll_obs ho
        rfl
      · rfl
      · obtain ⟨fd, r, rfl, -⟩ := mem_delEpoll_obs.mp ho
        rfl
      · rfl
  | suspend =>
      simp only [Sys.suspended, Sys.fixed, List.append_assoc]
      refine ⟨_, rfl, ?_⟩
      intro o ho
      simp only [List.mem_append, List.mem_cons, List.not_mem_nil, or_false] at ho
      rcases ho with (rfl | rfl) | ho | rfl | rfl | rfl | rfl | rfl
      · rfl
      · rfl
      · obtain ⟨k, fd, rfl, -⟩ := mem_addEpoll_obs ho
        rfl
      all_goals rfl
  | iterate hcurr hpc hset =>
      obtain ⟨seg, htrace, hobs, -⟩ := h.iterate_trace hpc hset _
      refine ⟨_, htrace, ?_⟩
      intro o ho
      simp only [List.mem_append, List.mem_singleton, List.mem_map] at ho
      rcases ho with ((rfl | ho) | rfl) | ⟨f, -, rfl⟩
      · rfl
      · obtain ⟨f, -, rfl | rfl⟩ := hobs o ho <;> rfl
      · rfl
      · rfl
  | wake =>
      refine ⟨_, rfl, ?_⟩
      intro o ho
      simp only [List.mem_append, List.mem_cons, List.not_mem_nil, or_false] at ho
      rcases ho with (rfl | rfl | rfl) | ho | rfl
      · rfl
      · rfl
      · rfl
      · obtain ⟨fd, r, rfl, -⟩ := mem_delEpoll_obs.mp ho
        rfl
      · rfl
  | _ => exact ⟨_, rfl, by simp [Act.records]⟩

/-- Frame numbers are handed out in order. -/
theorem Transition.nextFrame_le {n : Nat} {s s' : Sys} {a : Act}
    (htr : Transition n s a s') (h : Inv n s) : s.nextFrame ≤ s'.nextFrame := by
  cases htr with
  | fallback | reject | suspend => exact Nat.le_succ _
  | iterate hcurr hpc hset =>
      rw [h.iterate_rest hpc hset]
      exact Nat.le_refl _
  | _ => exact Nat.le_refl _

/-- The entries of the trace that are not about waking up a coroutine. -/
def Obs.quiet : Obs → Bool
  | .delivered _ | .activated _ | .processed _ | .dangling _ => false
  | _ => true

/-- The actions of the event loop inside an iteration. -/
def Act.ofLoop : Act → Bool
  | .iterate _ _ | .drain => true
  | _ => false

/-- Outside the event loop nothing is woken up. -/
theorem quiet_of_records {a : Act} {o : Obs} (ha : a.ofLoop = false) (h : a.records o) :
    o.quiet := by
  cases o <;> first | rfl | (cases a <;> simp [Act.records, Act.ofLoop] at ha h)

namespace Sys.Reached

variable {ok : Sys → Act → Prop} {tick : Nat} {size : Int} {s u v : Sys}

theorem step_extends (h : Sys.Reached ok tick size s) {a : Act} {s' : Sys}
    (hstep : s.step a = some s') : ∃ os, s'.trace = s.trace ++ os := by
  have hinv := inv h
  obtain ⟨os, hos, -⟩ := (hinv.step_transition hstep).records hinv
  exact ⟨os, hos⟩

/-- A run appends to the trace. -/
theorem run_extends (hu : Sys.Reached ok tick size u) (hrun : Reaches Sys.step ok u v) :
    ∃ seg, v.trace = u.trace ++ seg := by
  refine hrun.invariant (P := fun v => ∃ seg, v.trace = u.trace ++ seg) ⟨[], by simp⟩ ?_
  rintro w a w' hw ⟨seg, hseg⟩ - hstep
  obtain ⟨os, hos⟩ := step_extends (Reaches.trans hu hw) hstep
  exact ⟨seg ++ os, by rw [hos, hseg, List.append_assoc]⟩

/-- What a run from a reached state has recorded was recorded by a step of the run. -/
theorem emission_of_run (hu : Sys.Reached ok tick size u) (hrun : Reaches Sys.step ok u v)
    {before after : List Obs} {o : Obs} (htrace : v.trace = before ++ o :: after)
    (hnew : u.trace.length ≤ before.length) :
    ∃ w a w' os₁ os₂ later, Reaches Sys.step ok u w ∧ ok w a ∧
      Transition size.toNat w a w' ∧ w'.trace = w.trace ++ (os₁ ++ o :: os₂) ∧
      before = w.trace ++ os₁ ∧ after = os₂ ++ later := by
  obtain ⟨w, a, w', os₁, os₂, later, hw, hok, hstep, -, hlog, hbefore, hafter⟩ :=
    hrun.exists_emission (fun _ _ _ hw => step_extends (Reaches.trans hu hw)) htrace hnew
  have hinv : Inv size.toNat w := inv (Reaches.trans hu hw)
  exact ⟨w, a, w', os₁, os₂, later, hw, hok, hinv.step_transition hstep, hlog, hbefore, hafter⟩

/-- What was recorded after the set-up was recorded by a step of the run. -/
theorem emission (h : Sys.Reached ok tick size s) {before after : List Obs} {o : Obs}
    (htrace : s.trace = before ++ o :: after) (ho : o.ofCreation tick = false) :
    ∃ u a v os₁ os₂ later, Sys.Reached ok tick size u ∧ ok u a ∧
      Transition size.toNat u a v ∧ v.trace = u.trace ++ (os₁ ++ o :: os₂) ∧
      before = u.trace ++ os₁ ∧ after = os₂ ++ later := by
  have hinit : Sys.Reached ok tick size (Sys.init tick size) := Reaches.refl _
  obtain ⟨os, hos⟩ := hinit.run_extends h
  have hnew : (Sys.init tick size).trace.length ≤ before.length := by
    rw [hos] at htrace
    rcases split_append htrace with ⟨mid, hmid, -⟩ | ⟨os₁, hbefore, -⟩
    · have hmem : o ∈ (Sys.init tick size).trace := by simp [hmid]
      rw [init_trace hmem] at ho
      simp at ho
    · simp [hbefore]
  exact hinit.emission_of_run h htrace hnew

end Sys.Reached

end Libcr
