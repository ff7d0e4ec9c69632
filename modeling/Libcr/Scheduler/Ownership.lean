import Libcr.Scheduler.WakeTargets

/-!
# Who undoes which registration

`poll_inner` ignores most failures of `EPOLL_CTL_ADD`, and on its way out it issues
`EPOLL_CTL_DEL` for every descriptor of its array. It takes down what it has set up
itself and nothing else exactly when no descriptor of its array is, at that
moment, registered for another call. Calls whose arrays do not overlap while they
are suspended always leave that way; two calls that wait for the same descriptor
need not.
-/

namespace Libcr

namespace Sys

/-- A `poll_inner` call that leaves through its loop of `EPOLL_CTL_DEL` in this
step finds no descriptor of its array registered for another call. -/
def LeavesClean (s : Sys) : Act → Prop
  | .drain => ∀ f rest fr, s.lists.seq .active = f :: rest → s.frames f = some fr →
      ∀ fd r, watched fr.fds fd → s.epollSet fd = some r → r.frame = f
  | .poll call => ∀ t, s.curr = some (.worker t) → (s.fix t call).2.2 = false →
      (s.register call).2.2 = false → ¬ s.accepts t call →
      ∀ fd, watched call.fds fd → s.epollSet fd = none
  | _ => True

/-- A call other than `g` that leaves in this step does not have the descriptor in its
array. -/
def Spares (s : Sys) (g : FrameId) (fd : Fd) : Act → Prop
  | .drain => ∀ f rest fr, s.lists.seq .active = f :: rest → s.frames f = some fr →
      watched fr.fds fd → f = g
  | .poll call => ∀ t, s.curr = some (.worker t) → (s.fix t call).2.2 = false →
      (s.register call).2.2 = false → ¬ s.accepts t call → ¬ watched call.fds fd
  | _ => True

/-- A `poll_inner` call that is made in this step has no descriptor in common with
a call that is suspended. -/
def Unshared (s : Sys) : Act → Prop
  | .poll call => ∀ fd f fr, watched call.fds fd → s.frames f = some fr →
      ¬ watched fr.fds fd
  | _ => True

/-- The arrays of suspended calls do not overlap. -/
def Disjoint (s : Sys) : Prop :=
  ∀ f g fr gr fd, s.frames f = some fr → s.frames g = some gr → watched fr.fds fd →
    watched gr.fds fd → f = g

end Sys

namespace Inv

variable {n : Nat} {s : Sys}

/-- A registration is made for a descriptor of the array of its call. -/
theorem watched_of_registered (h : Inv n s) {fd : Fd} {r : Registration}
    (hr : s.epollSet fd = some r) :
    ∃ fr, s.frames r.frame = some fr ∧ watched fr.fds fd := by
  obtain ⟨hfd, fr, hfr, p, hp, hpfd⟩ := h.frames.registered fd r hr
  exact ⟨fr, hfr, hfd, p, List.mem_of_getElem? hp, hpfd⟩

theorem leavesClean_of_disjoint (h : Inv n s) (hdis : s.Disjoint) {a : Act}
    (ha : s.Unshared a) : s.LeavesClean a := by
  cases a with
  | drain =>
      intro f rest fr _ hfr fd r hw hr
      obtain ⟨gr, hgr, hw'⟩ := h.watched_of_registered hr
      exact hdis _ _ _ _ fd hgr hfr hw' hw
  | poll call =>
      intro t _ _ _ _ fd hw
      by_contra hne
      obtain ⟨r, hr⟩ := Option.ne_none_iff_exists'.mp hne
      obtain ⟨gr, hgr, hw'⟩ := h.watched_of_registered hr
      exact ha fd _ _ hw hgr hw'
  | _ => trivial

end Inv

/-- Which calls are live after a step, and with which arrays. -/
theorem Transition.frame_cases {n : Nat} {s s' : Sys} {a : Act}
    (htr : Transition n s a s') (h : Inv n s) {f : FrameId} {fr' : PollFrame}
    (hfr' : s'.frames f = some fr') :
    (∃ fr, s.frames f = some fr ∧ fr'.fds = fr.fds) ∨
      f = s.nextFrame ∧ ∃ call, a = .poll call ∧ fr'.fds = call.fds := by
  cases htr.frame_origin hfr' with
  | iterated hpc hset =>
      obtain ⟨fr, hfr, -, hfds, -⟩ := h.iterate_origin hpc hset _ hfr'
      exact Or.inl ⟨fr, hfr, hfds⟩
  | untouched _ hold => exact Or.inl ⟨fr', hold, rfl⟩
  | @suspended t call _ hnew hframe =>
      exact Or.inr ⟨hnew, call, rfl, by rw [hframe]; rfl⟩

/-- Calls that never share a descriptor with a suspended one keep the arrays of
the suspended ones apart. -/
theorem Transition.disjoint {n : Nat} {s s' : Sys} {a : Act} (htr : Transition n s a s')
    (h : Inv n s) (ha : s.Unshared a) (hdis : s.Disjoint) : s'.Disjoint := by
  intro f g fr' gr' fd hf hg hwf hwg
  rcases htr.frame_cases h hf with ⟨fr, hfr, hfds⟩ | ⟨rfl, call, rfl, hfds⟩ <;>
    rcases htr.frame_cases h hg with ⟨gr, hgr, hgds⟩ | ⟨rfl, call', hcall, hgds⟩
  · exact hdis f g fr gr fd hfr hgr (hfds ▸ hwf) (hgds ▸ hwg)
  · subst hcall
    exact absurd (hfds ▸ hwf) (ha fd f fr (hgds ▸ hwg) hfr)
  · exact absurd (hgds ▸ hwg) (ha fd g gr (hfds ▸ hwf) hgr)
  · rfl

/-- Runs without shared descriptors leave every call cleanly. -/
theorem Sys.Reached.leavesClean {tick : Nat} {size : Int} {s : Sys}
    (h : Sys.Reached Sys.Unshared tick size s) :
    Sys.Reached Sys.LeavesClean tick size s := by
  have hboth : Sys.Reached Sys.LeavesClean tick size s ∧ s.Disjoint := by
    refine Reaches.invariant
      (P := fun s => Sys.Reached Sys.LeavesClean tick size s ∧ s.Disjoint) h
      ⟨Reaches.refl _, ?_⟩ ?_
    · intro f g fr gr fd hf
      simp [init_frames] at hf
    · intro u a v hu hP hok hstep
      have hinv := Sys.Reached.inv hu
      refine ⟨hP.1.snoc (hinv.leavesClean_of_disjoint hP.2 hok) hstep, ?_⟩
      exact (hinv.step_transition hstep).disjoint hinv hok hP.2
  exact hboth.1

/-- The entries of the trace that are not about the epoll set. -/
def Obs.offEpoll : Obs → Bool
  | .added .. | .removed .. | .closed _ => false
  | _ => true

section Removal

variable {n : Nat} {s s' : Sys} {a : Act}

/-- What a step records about the epoll set. -/
theorem Transition.epoll_cases (htr : Transition n s a s') (h : Inv n s) :
    (s'.epollSet = s.epollSet ∧ ∃ os, s'.trace = s.trace ++ os ∧ ∀ o ∈ os, o.offEpoll) ∨
    (∃ fd, a = .close fd ∧ s' = s.closeFd fd) ∨
    (∃ t call, a = .poll call ∧ s.curr = some (.worker t) ∧ (s.fix t call).2.2 = false ∧
      (s.register call).2.2 = false ∧ ¬ s.accepts t call ∧ s' = s.rejected t call) ∨
    (∃ last ph t call, a = .poll call ∧ s' = s.suspended last ph t call) ∨
    (∃ f rest fr t ph, a = .drain ∧ s.lists.seq .active = f :: rest ∧
      s.frames f = some fr ∧ s' = s.woken f fr t ph) := by
  cases htr with
  | full => exact Or.inl ⟨rfl, [], by simp, by simp⟩
  | drained => exact Or.inl ⟨rfl, [], by simp [Sys.setPc, Sys.setCo], by simp⟩
  | expired | fallback =>
      refine Or.inl ⟨rfl, ?_⟩
      simp only [Sys.emit, Sys.fixed, List.append_assoc]
      exact ⟨_, rfl, by simp [Obs.offEpoll]⟩
  | reject ht hcurr hpc hfix hreg hacc =>
      exact Or.inr (Or.inr (Or.inl ⟨_, _, rfl, hcurr, hfix, hreg, hacc, rfl⟩))
  | suspend => exact Or.inr (Or.inr (Or.inr (Or.inl ⟨_, _, _, _, rfl, rfl⟩)))
  | close => exact Or.inr (Or.inl ⟨_, rfl, rfl⟩)
  | iterate hcurr hpc hset =>
      refine Or.inl ⟨by rw [h.iterate_rest hpc hset]; rfl, ?_⟩
      obtain ⟨seg, htrace, hobs, -⟩ := h.iterate_trace hpc hset _
      refine ⟨_, htrace, ?_⟩
      intro o ho
      simp only [List.mem_append, List.mem_singleton, List.mem_map] at ho
      rcases ho with ((rfl | ho) | rfl) | ⟨f, -, rfl⟩
      · rfl
      · obtain ⟨f, -, rfl | rfl⟩ := hobs o ho <;> rfl
      · rfl
      · rfl
  | wake hcurr hpc hactive hframe =>
      exact Or.inr (Or.inr (Or.inr (Or.inr ⟨_, _, _, _, _, rfl, hactive, hframe, rfl⟩)))
  | _ => exact Or.inl ⟨rfl, _, rfl, by simp [Obs.offEpoll]⟩

/-- A call that leaves cleanly removes its own registrations only. -/
theorem Transition.removes_own (htr : Transition n s a s') (h : Inv n s)
    (ha : s.LeavesClean a) :
    ∃ os, s'.trace = s.trace ++ os ∧ ∀ f fd r, .removed f fd r ∈ os → r.frame = f := by
  rcases htr.epoll_cases h with ⟨-, os, htrace, hobs⟩ | ⟨fd, rfl, rfl⟩ |
    ⟨t, call, rfl, hcurr, hfix, hreg, hacc, rfl⟩ | ⟨last, ph, t, call, rfl, rfl⟩ |
    ⟨f, rest, fr, t, ph, rfl, hactive, hframe, rfl⟩
  · exact ⟨os, htrace, fun f fd r hr => absurd (hobs _ hr) (by simp [Obs.offEpoll])⟩
  · exact ⟨_, rfl, by simp⟩
  · simp only [Sys.rejected, Sys.fixed, List.append_assoc]
    refine ⟨_, rfl, ?_⟩
    intro f fd r hr
    simp only [List.mem_append, List.mem_cons, List.not_mem_nil, or_false, reduceCtorEq,
      false_or] at hr
    rcases hr with hr | hr
    · obtain ⟨k, fd', heq, -⟩ := mem_addEpoll_obs hr
      simp at heq
    · -- What is there now was registered by this call, as nothing was there before.
      obtain ⟨fd', r', heq, hw, hset⟩ := mem_delEpoll_obs.mp hr
      obtain ⟨rfl, rfl, rfl⟩ := Obs.removed.inj heq
      rcases addEpoll_cases hset with hold | ⟨hframe, -⟩
      · rw [ha t hcurr hfix hreg hacc fd hw] at hold
        simp at hold
      · exact hframe
  · simp only [Sys.suspended, Sys.fixed, List.append_assoc]
    refine ⟨_, rfl, ?_⟩
    intro f fd r hr
    simp only [List.mem_append, List.mem_cons, List.not_mem_nil, or_false, reduceCtorEq,
      false_or] at hr
    obtain ⟨k, fd', heq, -⟩ := mem_addEpoll_obs hr
    simp at heq
  · refine ⟨_, rfl, ?_⟩
    intro g fd r hr
    simp only [List.mem_append, List.mem_cons, List.not_mem_nil, or_false, reduceCtorEq,
      false_or] at hr
    obtain ⟨fd', r', heq, hw, hset⟩ := mem_delEpoll_obs.mp hr
    obtain ⟨rfl, rfl, rfl⟩ := Obs.removed.inj heq
    exact ha _ rest fr hactive hframe fd r hw hset

/-- Conversely, a call that removes its own registrations only leaves cleanly. -/
theorem Transition.leavesClean (htr : Transition n s a s') (h : Inv n s) {os : List Obs}
    (htrace : s'.trace = s.trace ++ os)
    (hown : ∀ f fd r, .removed f fd r ∈ os → r.frame = f) : s.LeavesClean a := by
  cases htr with
  | @wake f rest fr t ph hcurr hpc hactive hframe =>
      intro f' rest' fr' hactive' hfr' fd r hw hset
      obtain ⟨rfl, -⟩ := List.cons.inj (hactive.symm.trans hactive')
      obtain rfl := Option.some.inj (hframe.symm.trans hfr')
      have hmem : .removed f fd r ∈ (delEpoll f fr.fds s.epollSet).2 :=
        mem_delEpoll_obs.mpr ⟨fd, r, rfl, hw, hset⟩
      apply hown f fd r
      rw [← List.append_cancel_left htrace]
      simp [hmem]
  | drained hcurr hpc hactive =>
      intro f rest fr hactive'
      simp [hactive] at hactive'
  | @expired _ t call _ hcurr hpc hfix =>
      intro u hu hfix'
      rw [← Sys.worker_unique hcurr hu, hfix] at hfix'
      simp at hfix'
  | @fallback _ t call _ hcurr hpc hfix hreg =>
      intro u hu _ hreg'
      rw [hreg] at hreg'
      simp at hreg'
  | @suspend _ t call _ _ hcurr hpc hlast hfix hreg hacc =>
      intro u hu _ _ hacc'
      obtain rfl := Sys.worker_unique hcurr hu
      exact absurd hacc hacc'
  | @reject _ t call _ hcurr hpc hfix hreg hacc =>
      intro u hu _ _ _ fd hw
      by_contra hne
      obtain ⟨r, hr⟩ := Option.ne_none_iff_exists'.mp hne
      have hset : (s.register call).1 fd = some r := addEpoll_of_some hr
      have hdel : .removed s.nextFrame fd r ∈
          (delEpoll s.nextFrame call.fds (s.register call).1).2 :=
        mem_delEpoll_obs.mpr ⟨fd, r, rfl, hw, hset⟩
      have hmem : .removed s.nextFrame fd r ∈ os := by
        simp only [Sys.rejected, Sys.fixed, List.append_assoc] at htrace
        rw [← List.append_cancel_left htrace]
        simp [hdel]
      -- The entry was there before the call, so its owner is an older call.
      obtain ⟨fr, hfr, -⟩ := h.watched_of_registered hr
      rw [hown _ _ _ hmem, h.frames.fresh _ (Nat.le_refl _)] at hfr
      simp at hfr
  | _ => trivial

/-- A registration that a step records is that of the call it makes, and is in the
set if the call is suspended. -/
theorem Transition.added_new (htr : Transition n s a s') (h : Inv n s) :
    ∃ os, s'.trace = s.trace ++ os ∧ ∀ f i fd, .added f i fd ∈ os →
      f < s'.nextFrame ∧ (s'.frames f ≠ none →
        ∃ e, s'.epollSet fd = some ⟨f, i, e⟩) := by
  rcases htr.epoll_cases h with ⟨-, os, htrace, hobs⟩ | ⟨fd', rfl, rfl⟩ |
    ⟨t, call, rfl, -, -, -, -, rfl⟩ | ⟨last, ph, t, call, rfl, rfl⟩ |
    ⟨g, rest, fr, t, ph, rfl, -, -, rfl⟩
  · exact ⟨os, htrace, fun f i fd hmem => absurd (hobs _ hmem) (by simp [Obs.offEpoll])⟩
  · exact ⟨_, rfl, by simp⟩
  · simp only [Sys.rejected, Sys.fixed, List.append_assoc]
    refine ⟨_, rfl, ?_⟩
    intro f i fd hmem
    simp only [List.mem_append, List.mem_cons, List.not_mem_nil, or_false, reduceCtorEq,
      false_or] at hmem
    rcases hmem with hmem | hmem
    · obtain ⟨k, fd', heq, -⟩ := mem_addEpoll_obs hmem
      obtain ⟨rfl, -, -⟩ := Obs.added.inj heq
      refine ⟨Nat.lt_succ_self _, fun hlive => ?_⟩
      exact absurd (h.frames.fresh _ (Nat.le_refl _)) hlive
    · obtain ⟨fd', r, heq, -⟩ := mem_delEpoll_obs.mp hmem
      simp at heq
  · simp only [Sys.suspended, Sys.fixed, List.append_assoc]
    refine ⟨_, rfl, ?_⟩
    intro f i fd hmem
    simp only [List.mem_append, List.mem_cons, List.not_mem_nil, or_false, reduceCtorEq,
      false_or] at hmem
    obtain ⟨k, fd', heq, -, -, e, hset⟩ := mem_addEpoll_obs hmem
    obtain ⟨rfl, rfl, rfl⟩ := Obs.added.inj heq
    exact ⟨Nat.lt_succ_self _, fun _ => ⟨e, hset⟩⟩
  · refine ⟨_, rfl, ?_⟩
    intro f i fd hmem
    simp only [List.mem_append, List.mem_cons, List.not_mem_nil, or_false, reduceCtorEq,
      false_or] at hmem
    obtain ⟨fd', r, heq, -⟩ := mem_delEpoll_obs.mp hmem
    simp at heq

/-- A registration that is spared stays until its call returns or the descriptor is
closed. -/
theorem Transition.registration_spared (htr : Transition n s a s') (h : Inv n s) {fd : Fd}
    {r : Registration} (ha : s.Spares r.frame fd a) {os : List Obs}
    (htrace : s'.trace = s.trace ++ os) (hr : s.epollSet fd = some r)
    (hlive : s'.frames r.frame ≠ none) (hclosed : .closed fd ∉ os) :
    s'.epollSet fd = some r := by
  rcases htr.epoll_cases h with ⟨hset, -⟩ | ⟨fd', rfl, rfl⟩ |
    ⟨t, call, rfl, hcurr, hfix, hreg, hacc, rfl⟩ | ⟨last, ph, t, call, rfl, rfl⟩ |
    ⟨f, rest, fr, t, ph, rfl, hactive, hframe, rfl⟩
  · rw [hset, hr]
  · have hne : fd ≠ fd' := by
      rintro rfl
      refine hclosed ?_
      rw [← List.append_cancel_left htrace]
      simp
    simpa [Sys.closeFd, Sys.emit, Function.update_of_ne hne] using hr
  · simp only [Sys.rejected, delEpoll_set, if_neg (ha t hcurr hfix hreg hacc)]
    exact addEpoll_of_some hr
  · exact addEpoll_of_some hr
  · have hnot : ¬ watched fr.fds fd := by
      intro hw
      apply hlive
      rw [← ha f rest fr hactive hframe hw]
      simp [Sys.woken]
    simpa only [Sys.woken, delEpoll_set, if_neg hnot] using hr

theorem Sys.LeavesClean.spares (ha : s.LeavesClean a) {fd : Fd} {r : Registration}
    (hr : s.epollSet fd = some r) : s.Spares r.frame fd a := by
  cases a with
  | drain =>
      intro f rest fr hactive hframe hw
      exact (ha f rest fr hactive hframe fd r hw hr).symm
  | poll call =>
      intro t hcurr hfix hreg hacc hw
      rw [ha t hcurr hfix hreg hacc fd hw] at hr
      simp at hr
  | _ => trivial

/-- Where calls leave cleanly, a registration stays until its call returns or the
descriptor is closed. -/
theorem Transition.registration_kept (htr : Transition n s a s') (h : Inv n s)
    (ha : s.LeavesClean a) {os : List Obs} (htrace : s'.trace = s.trace ++ os) {fd : Fd}
    {r : Registration} (hr : s.epollSet fd = some r) (hlive : s'.frames r.frame ≠ none)
    (hclosed : .closed fd ∉ os) : s'.epollSet fd = some r :=
  htr.registration_spared h (ha.spares hr) htrace hr hlive hclosed

/-- What a call that is still suspended has registered, and that was not closed
since, is registered for it. -/
def Sys.Persists (s : Sys) : Prop :=
  ∀ before after f i fd, s.trace = before ++ .added f i fd :: after →
    .closed fd ∉ after → s.frames f ≠ none →
    ∃ r, s.epollSet fd = some r ∧ r.frame = f ∧ r.item = i

theorem Transition.persists (htr : Transition n s a s') (h : Inv n s)
    (ha : s.LeavesClean a)
    (hlt : ∀ f i fd, .added f i fd ∈ s.trace → f < s.nextFrame) (hP : s.Persists) :
    s'.Persists := by
  intro before after f i fd htrace hclosed hlive
  obtain ⟨os, hos, hnew⟩ := htr.added_new h
  rw [hos] at htrace
  rcases split_append htrace with ⟨mid, hold, rfl⟩ | ⟨os₁, -, rfl⟩
  · rw [List.mem_append, not_or] at hclosed
    obtain ⟨fr', hfr'⟩ := Option.ne_none_iff_exists'.mp hlive
    have hlive' : s.frames f ≠ none := by
      rcases htr.frame_cases h hfr' with ⟨fr, hfr, -⟩ | ⟨rfl, -⟩
      · simp [hfr]
      · exact absurd (hlt _ i fd (by simp [hold])) (Nat.lt_irrefl _)
    obtain ⟨r, hr, rfl, rfl⟩ := hP before mid f i fd hold hclosed.1 hlive'
    exact ⟨r, htr.registration_kept h ha hos hr hlive hclosed.2, rfl, rfl⟩
  · obtain ⟨e, he⟩ := (hnew f i fd (by simp)).2 hlive
    exact ⟨_, he, rfl, rfl⟩

end Removal

namespace Sys.Reached

variable {ok : Sys → Act → Prop} {tick : Nat} {size : Int} {s : Sys}

theorem added_lt (h : Sys.Reached ok tick size s) {f : FrameId} {i : Nat} {fd : Fd}
    (hmem : .added f i fd ∈ s.trace) : f < s.nextFrame := by
  revert f i fd
  refine h.induction
    (P := fun s => ∀ {f i fd}, .added f i fd ∈ s.trace → f < s.nextFrame) ?_ ?_
  · intro f i fd hmem
    exact absurd (init_trace hmem) (by simp [Obs.ofCreation])
  · intro u a v _ hinv _ htr hP f i fd hmem
    obtain ⟨os, hos, hnew⟩ := htr.added_new hinv
    rw [hos, List.mem_append] at hmem
    rcases hmem with hmem | hmem
    · exact Nat.lt_of_lt_of_le (hP hmem) (htr.nextFrame_le hinv)
    · exact (hnew f i fd hmem).1

theorem persists (h : Sys.Reached Sys.LeavesClean tick size s) : s.Persists := by
  refine h.induction (P := Sys.Persists) ?_ ?_
  · intro before after f i fd htrace
    have hmem : .added f i fd ∈ (Sys.init tick size).trace := by simp [htrace]
    exact absurd (init_trace hmem) (by simp [Obs.ofCreation])
  · intro u a v hu hinv hok htr hP
    exact htr.persists hinv hok (fun f i fd hmem => added_lt hu hmem) hP

theorem removed_own (h : Sys.Reached Sys.LeavesClean tick size s) {f : FrameId} {fd : Fd}
    {r : Registration} (hmem : .removed f fd r ∈ s.trace) : r.frame = f := by
  revert f fd r
  refine h.induction
    (P := fun s => ∀ {f fd r}, .removed f fd r ∈ s.trace → r.frame = f) ?_ ?_
  · intro f fd r hmem
    exact absurd (init_trace hmem) (by simp [Obs.ofCreation])
  · intro u a v _ hinv hok htr hP f fd r hmem
    obtain ⟨os, hos, hown⟩ := htr.removes_own hinv hok
    rw [hos, List.mem_append] at hmem
    rcases hmem with hmem | hmem
    · exact hP hmem
    · exact hown f fd r hmem

end Sys.Reached

/-- In every run in which each `poll_inner` call that leaves finds no descriptor of
its array registered for another call, calls remove what they registered
themselves, all of it and nothing else, and a descriptor that a call has registered stays
registered for it while it is suspended and the descriptor open. A step removes
something else exactly when it does not meet that condition, and it is met all
along by runs in which no call shares a descriptor with a suspended one. -/
theorem poll_undoes_own {tick : Nat} {size : Int} :
    (∀ s, Sys.Reached Sys.LeavesClean tick size s →
      (∀ f fd r, .removed f fd r ∈ s.trace → r.frame = f) ∧
      (∀ fd r, s.epollSet fd = some r → s.Suspended r.frame) ∧
      ∀ before after f i fd, s.trace = before ++ .added f i fd :: after →
        .closed fd ∉ after → s.Suspended f →
        ∃ r, s.epollSet fd = some r ∧ r.frame = f ∧ r.item = i) ∧
    (∀ s a s', Sys.Reached always tick size s → s.step a = some s' →
      ((∃ os, s'.trace = s.trace ++ os ∧ ∀ f fd r, .removed f fd r ∈ os → r.frame = f) ↔
        s.LeavesClean a)) ∧
    ∀ s, Sys.Reached Sys.Unshared tick size s → Sys.Reached Sys.LeavesClean tick size s := by
  refine ⟨?_, ?_, fun s h => h.leavesClean⟩
  · intro s h
    refine ⟨fun f fd r hmem => h.removed_own hmem, ?_, ?_⟩
    · intro fd r hr
      obtain ⟨fr, hfr, -⟩ := h.inv.watched_of_registered hr
      exact h.inv.suspended_of_frame hfr
    · rintro before after f i fd htrace hclosed ⟨fr, -, -, hfr, -⟩
      exact h.persists before after f i fd htrace hclosed (by simp [hfr])
  · intro s a s' h hstep
    have htr := h.inv.step_transition hstep
    constructor
    · rintro ⟨os, hos, hown⟩
      exact htr.leavesClean h.inv hos hown
    · exact htr.removes_own h.inv

/-- A task that polls a descriptor nobody else waits for is registered for it. -/
theorem poll_undoes_own_single :
    ∃ s, Sys.Reached Sys.Unshared 1000 1 s ∧
      ∃ r, s.epollSet 5 = some r ∧ s.Suspended r.frame := by
  have hstep : (Sys.init 1000 1).step (.newTask plainAttr) =
      some ((Sys.init 1000 1).newTask .main .main plainAttr).1 := rfl
  obtain ⟨s, hs⟩ := Option.isSome_iff_exists.mp (show
    (((Sys.init 1000 1).newTask .main .main plainAttr).1.step
      (.poll (plainPoll 5 10 1000))).isSome from rfl)
  have hreached : Sys.Reached Sys.Unshared 1000 1 s := by
    refine ((Reaches.refl _).snoc trivial hstep).snoc ?_ hs
    intro fd f fr _ hfr
    have hnone : ((Sys.init 1000 1).newTask .main .main plainAttr).1.frames f = none := rfl
    rw [hnone] at hfr
    simp at hfr
  have hset : s.epollSet 5 = some ⟨0, 0, 1⟩ := by
    have hmap := congrArg (Option.map fun s => s.epollSet 5) hs
    exact (Option.some.inj hmap).symm
  have hclean := poll_undoes_own.2.2 s hreached
  exact ⟨s, hreached, _, hset, (poll_undoes_own.1 s hclean).2.1 5 _ hset⟩

/-- Two tasks wait for the descriptor 5. The timer of the second fires, and on its way
out its call removes the registration of the first, which sleeps on without it. -/
theorem poll_undoes_other :
    ∃ s, Sys.Reached always 1000 2 s ∧ .removed 1 5 ⟨0, 0, 1⟩ ∈ s.trace ∧
      .added 0 0 5 ∈ s.trace ∧ .closed 5 ∉ s.trace ∧ s.Suspended 0 ∧
      s.epollSet 5 = none := by
  obtain ⟨s, hs, hp⟩ := exec_reached_of 1000 2
    [.newTask plainAttr, .poll (plainPoll 5 10 1000), .newTask plainAttr,
      .poll (plainPoll 5 0 1000), .eventloop 1000, .iterate [] 1000, .drain]
    (fun s => decide (.removed 1 5 ⟨0, 0, 1⟩ ∈ s.trace) && decide (.added 0 0 5 ∈ s.trace) &&
      decide (.closed 5 ∉ s.trace) && (s.frames 0).isSome && (s.epollSet 5).isNone)
    (by decide +kernel)
  simp only [Bool.and_eq_true, decide_eq_true_eq, Option.isNone_iff_eq_none] at hp
  obtain ⟨fr, hfr⟩ := Option.isSome_iff_exists.mp hp.1.2
  exact ⟨s, hs, hp.1.1.1.1, hp.1.1.1.2, hp.1.1.2, hs.inv.suspended_of_frame hfr, hp.2⟩

end Libcr
