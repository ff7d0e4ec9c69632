import Mathlib.Data.List.Induction
import Libcr.Scheduler.Inversion

/-!
# One iteration of the event loop

What `coroutine_eventloop` does between `epoll_wait` and the loop that empties
the active list. First every event is handed to `prepare_poll_event`: the timer
item of the `poll_inner` call it is for moves to the active list at its first
event and stays there. Then the expired items that are still in the wheel are
put behind them.
-/

namespace Libcr

open Sys (Events)

/-- The `poll_inner` calls that the events of a batch carry items of. -/
def targets (set : Fd → Option Registration) (events : Events) : List FrameId :=
  events.filterMap fun e => (set e.1).map Registration.frame

theorem targets_concat {set : Fd → Option Registration} {events : Events}
    {e : Fd × BitVec 32} {r : Registration} (h : set e.1 = some r) :
    targets set (events ++ [e]) = targets set events ++ [r.frame] := by
  simp [targets, List.filterMap_append, h]

/-- What `prepare_poll_event` keeps is kept by the whole batch. -/
theorem Sys.prepareAll_invariant {P : Sys → Prop} {s : Sys} (h : P s)
    (hstep : ∀ s r m, P s → P (s.preparePollEvent r m)) (events : Events) :
    P (s.prepareAll events) := by
  unfold Sys.prepareAll
  induction events generalizing s with
  | nil => exact h
  | cons e rest ih =>
      rw [List.foldl_cons]
      apply ih
      split
      · exact h
      · exact hstep _ _ _ h

/-- What has changed after `prepare_poll_event` was called for the items of the
calls `ts`, when all of these calls are live and none was on the active list. -/
structure Prepared (s : Sys) (ts : List FrameId) (s' : Sys) : Prop where
  rest : s' = { s with lists := s'.lists, frames := s'.frames, trace := s'.trace }
  linked : s'.lists.WellLinked
  active : ∀ f, f ∈ s'.lists.seq .active ↔ f ∈ ts
  others : ∀ l, l ≠ .active → s'.lists.seq l = (s.lists.seq l).filter fun f => f ∉ ts
  dead : ∀ f, s.frames f = none → s'.frames f = none
  live : ∀ f fr, s.frames f = some fr → ∃ fr', s'.frames f = some fr' ∧
    fr'.coroutine = fr.coroutine ∧ fr'.fds = fr.fds ∧ fr'.expire = fr.expire ∧
      fr'.allEventDetatch = decide (f ∈ ts)
  trace : ∃ seg, s'.trace = s.trace ++ seg ∧
    (∀ o ∈ seg, ∃ f ∈ ts, o = .delivered f ∨ o = .activated f) ∧
      ∀ f, seg.count (.activated f) = if f ∈ ts then 1 else 0

namespace Prepared

variable {s s' : Sys} {ts : List FrameId}

theorem refl (hlinked : s.lists.WellLinked) (hactive : s.lists.seq .active = [])
    (hflags : ∀ f fr, s.frames f = some fr → fr.allEventDetatch = false) :
    Prepared s [] s where
  rest := rfl
  linked := hlinked
  active := by simp [hactive]
  others := by simp
  dead := fun _ h => h
  live := fun f fr h => ⟨fr, h, rfl, rfl, rfl, by simp [hflags f fr h]⟩
  trace := ⟨[], by simp, by simp, by simp⟩

/-- An event for a call that has had one before only changes its `revents` and
`raise_cnt`. -/
theorem again (h : Prepared s ts s') {r : Registration} {events : BitVec 32}
    {fr : PollFrame} (hfr : s.frames r.frame = some fr) (hmem : r.frame ∈ ts) :
    Prepared s (ts ++ [r.frame]) (s'.preparePollEvent r events) := by
  obtain ⟨fr', hfr', hco, hfds, hexp, hflag⟩ := h.live _ fr hfr
  have hmem' : ∀ f, f ∈ ts ++ [r.frame] ↔ f ∈ ts := by
    intro f
    simp only [List.mem_append, List.mem_singleton, or_iff_left_iff_imp]
    rintro rfl
    exact hmem
  have hflag' : fr'.allEventDetatch = true := by rw [hflag, decide_eq_true hmem]
  have hprep : s'.preparePollEvent r events =
      (s'.emit [.delivered r.frame]).setFrame r.frame (some { fr' with
        revents := fr'.revents.set r.item (epollEventToPoll events)
        raiseCnt := fr'.raiseCnt + 1 }) := by
    simp [Sys.preparePollEvent, hfr', hflag']
  obtain ⟨seg, htrace, hobs, hcount⟩ := h.trace
  rw [hprep]
  refine
    { rest := ?_
      linked := h.linked
      active := fun f => (h.active f).trans (hmem' f).symm
      others := ?_
      dead := ?_
      live := ?_
      trace := ⟨seg ++ [.delivered r.frame], ?_, ?_, ?_⟩ }
  · rw [h.rest]
    rfl
  · intro l hl
    simp only [hmem']
    exact h.others l hl
  · intro f hf
    have hne : f ≠ r.frame := by
      rintro rfl
      rw [hf] at hfr
      simp at hfr
    simpa [Sys.setFrame, Sys.emit, Function.update_of_ne hne] using h.dead f hf
  · intro f fr₀ hf
    by_cases hne : f = r.frame
    · subst hne
      rw [hfr, Option.some.injEq] at hf
      subst hf
      refine ⟨_, Function.update_self .., hco, hfds, hexp, ?_⟩
      simp [hflag']
    · obtain ⟨fr₁, hfr₁, hrest⟩ := h.live f fr₀ hf
      refine ⟨fr₁, ?_, ?_⟩
      · simpa [Sys.setFrame, Sys.emit, Function.update_of_ne hne] using hfr₁
      · simpa only [hmem'] using hrest
  · simp [Sys.setFrame, Sys.emit, htrace]
  · intro o ho
    simp only [hmem']
    rcases List.mem_append.mp ho with ho | ho
    · exact hobs o ho
    · exact ⟨r.frame, hmem, Or.inl (List.mem_singleton.mp ho)⟩
  · intro f
    simp only [hmem']
    simp [List.count_append, hcount]

/-- The first event for a call also moves its timer item to the active list. -/
theorem first (h : Prepared s ts s') {r : Registration} {events : BitVec 32}
    {fr : PollFrame} (hfr : s.frames r.frame = some fr) (hmem : r.frame ∉ ts) :
    Prepared s (ts ++ [r.frame]) (s'.preparePollEvent r events) := by
  obtain ⟨fr', hfr', hco, hfds, hexp, hflag⟩ := h.live _ fr hfr
  have hflag' : fr'.allEventDetatch = false := by rw [hflag, decide_eq_false hmem]
  have hunlinked := TimerLists.parent_removeFromLink_self s'.lists r.frame
  have hprep : s'.preparePollEvent r events =
      ({ s'.emit [.delivered r.frame] with
        lists := (TimerLists.removeFromLink s'.lists r.frame).append .active r.frame
        frames := Function.update s'.frames r.frame (some { fr' with
          revents := fr'.revents.set r.item (epollEventToPoll events)
          raiseCnt := fr'.raiseCnt + 1
          allEventDetatch := true }) }).emit [.activated r.frame] := by
    simp [Sys.preparePollEvent, hfr', hflag', Sys.setFrame, Sys.emit,
      TimerLists.addTail_of_unlinked hunlinked]
  obtain ⟨seg, htrace, hobs, hcount⟩ := h.trace
  rw [hprep]
  refine
    { rest := ?_
      linked := (TimerLists.wellLinked_removeFromLink h.linked _).append _ hunlinked
      active := ?_
      others := ?_
      dead := ?_
      live := ?_
      trace := ⟨seg ++ [.delivered r.frame, .activated r.frame], ?_, ?_, ?_⟩ }
  · rw [h.rest]
    rfl
  · intro f
    have hnot : r.frame ∉ s'.lists.seq .active := fun hin => hmem ((h.active _).mp hin)
    simp [Sys.emit, LinkedSeqs.append, TimerLists.seq_removeFromLink h.linked,
      List.erase_of_not_mem hnot, h.active]
  · intro l hl
    simp only [Sys.emit, LinkedSeqs.append, Function.update_of_ne hl,
      TimerLists.seq_removeFromLink h.linked, h.others l hl]
    rw [List.Nodup.erase_eq_filter, List.filter_filter]
    · apply List.filter_congr
      intro f _
      by_cases hf : f = r.frame <;> simp [hf]
    · rw [← h.others l hl]
      exact h.linked.nodup l
  · intro f hf
    have hne : f ≠ r.frame := by
      rintro rfl
      rw [hf] at hfr
      simp at hfr
    simpa [Sys.emit, Function.update_of_ne hne] using h.dead f hf
  · intro f fr₀ hf
    by_cases hne : f = r.frame
    · subst hne
      rw [hfr, Option.some.injEq] at hf
      subst hf
      refine ⟨_, Function.update_self .., hco, hfds, hexp, ?_⟩
      simp
    · obtain ⟨fr₁, hfr₁, hrest⟩ := h.live f fr₀ hf
      refine ⟨fr₁, ?_, ?_⟩
      · simpa [Sys.emit, Function.update_of_ne hne] using hfr₁
      · simpa [hne] using hrest
  · simp [Sys.emit, htrace]
  · intro o ho
    rcases List.mem_append.mp ho with ho | ho
    · obtain ⟨f, hf, hor⟩ := hobs o ho
      exact ⟨f, by simp [hf], hor⟩
    · exact ⟨r.frame, by simp, by simpa using ho⟩
  · intro f
    rw [List.count_append, hcount]
    by_cases hne : f = r.frame
    · subst hne
      simp [hmem]
    · simp [hne, Ne.symm hne]

/-- The loop over a whole batch of events. -/
theorem all {events : Events} (h : Prepared s [] s)
    (hlive : ∀ e ∈ events, ∃ r fr, s.epollSet e.1 = some r ∧ s.frames r.frame = some fr) :
    Prepared s (targets s.epollSet events) (s.prepareAll events) := by
  induction events using List.reverseRecOn with
  | nil => exact h
  | append_singleton events e ih =>
      have ih := ih fun e' he' => hlive e' (List.mem_append_left _ he')
      obtain ⟨r, fr, hset, hfr⟩ := hlive e (by simp)
      have hset' : (s.prepareAll events).epollSet e.1 = some r := by
        rw [ih.rest]
        exact hset
      have hstep : s.prepareAll (events ++ [e]) =
          (s.prepareAll events).preparePollEvent r e.2 := by
        simp only [Sys.prepareAll, List.foldl_concat] at hset' ⊢
        rw [hset']
      rw [hstep, targets_concat hset]
      by_cases hmem : r.frame ∈ targets s.epollSet events
      · exact ih.again hfr hmem
      · exact ih.first hfr hmem

end Prepared

/-- The loop head after `epoll_wait` has returned and its events were prepared. -/
def Sys.prepared (s : Sys) (events : Events) : Sys :=
  (s.emit [.epollWait]).prepareAll events

/-- The items `takeAllTimeout` finds expired after that. -/
def Sys.due (s : Sys) (events : Events) (tick : Nat) : List FrameId :=
  (takeAllTimeout (s.prepared events).wheel (s.prepared events).lists tick .timeout).2.seq
    .timeout

/-- Taking into an empty list from lists that only the slots and the active list
are linked in. -/
theorem parent_takeAllTimeout {w : Wheel} {L : TimerLists FrameId} (h : L.WellLinked)
    (tick : Nat) (f : FrameId) :
    (takeAllTimeout w L tick .timeout).2.parent f = L.parent f ∨
      (∃ k, L.parent f = some (.slot k)) ∧
        (takeAllTimeout w L tick .timeout).2.parent f = some .timeout := by
  obtain ⟨cnt, -, hlists⟩ := takeAllTimeout_lists w L tick .timeout
  rw [hlists]
  refine (h.parent_spliceAll (notMem_visitedSlots (by simp) _ _) f).imp_right ?_
  rintro ⟨⟨m, hm, hparent⟩, heq⟩
  simp only [visitedSlots, List.mem_map] at hm
  obtain ⟨i, -, rfl⟩ := hm
  exact ⟨⟨_, hparent⟩, heq⟩

namespace Inv

variable {n : Nat} {s : Sys}

theorem seq_timeout (h : Inv n s) : s.lists.seq .timeout = [] := by
  rw [List.eq_nil_iff_forall_not_mem]
  intro f hf
  rcases h.frames.lists f _ ((h.frames.linked.mem_iff _ _).mp hf) with hl | ⟨k, hl⟩ <;>
    simp at hl

/-- The frames whose registrations are in the epoll set are live. -/
theorem exists_frame (h : Inv n s) {events : Events}
    (hset : ∀ e ∈ events, (s.epollSet e.1).isSome) :
    ∀ e ∈ events, ∃ r fr, s.epollSet e.1 = some r ∧ s.frames r.frame = some fr := by
  intro e he
  obtain ⟨r, hr⟩ := Option.isSome_iff_exists.mp (hset e he)
  obtain ⟨-, fr, hfr, -⟩ := h.frames.registered _ r hr
  exact ⟨r, fr, hr, hfr⟩

/-- At the head of the event loop no live call has had an event. -/
theorem attached (h : Inv n s) (hpc : s.pc .main = .loopHead) {f : FrameId} {fr : PollFrame}
    (hfr : s.frames f = some fr) : fr.allEventDetatch = false := by
  by_contra hflag
  have hparent := h.frames.detached f fr hfr (by simpa using hflag)
  rw [← h.frames.linked.mem_iff, h.frames.active (by simp [hpc])] at hparent
  simp at hparent

/-- The preparation of a batch of events, from the head of the event loop. -/
theorem prepared (h : Inv n s) (hpc : s.pc .main = .loopHead) {events : Events}
    (hset : ∀ e ∈ events, (s.epollSet e.1).isSome) :
    Prepared (s.emit [.epollWait]) (targets s.epollSet events) (s.prepared events) := by
  have hactive := h.frames.active (by simp [hpc])
  exact Prepared.all (Prepared.refl h.frames.linked hactive fun _ _ => h.attached hpc)
    (h.exists_frame hset)

/-- The calls that events are delivered to have their items in slots. -/
theorem target_parent (h : Inv n s) (hpc : s.pc .main = .loopHead) {events : Events}
    (hset : ∀ e ∈ events, (s.epollSet e.1).isSome) {f : FrameId}
    (hf : f ∈ targets s.epollSet events) : ∃ k, s.lists.parent f = some (.slot k) := by
  obtain ⟨e, he, hef⟩ := List.mem_filterMap.mp hf
  obtain ⟨r, fr, hr, hfr⟩ := h.exists_frame hset e he
  rw [hr, Option.map_some, Option.some.injEq] at hef
  subst hef
  have hlive := h.frames.live_iff r.frame
  rw [hfr] at hlive
  obtain ⟨l, hl⟩ := Option.isSome_iff_exists.mp hlive
  rcases h.frames.lists _ l hl with rfl | ⟨k, rfl⟩
  · rw [← h.frames.linked.mem_iff, h.frames.active (by simp [hpc])] at hl
    simp at hl
  · exact ⟨k, hl⟩

theorem prepared_parent (h : Inv n s) (hpc : s.pc .main = .loopHead) {events : Events}
    (hset : ∀ e ∈ events, (s.epollSet e.1).isSome) (f : FrameId) :
    (s.prepared events).lists.parent f = s.lists.parent f ∨
      (∃ k, s.lists.parent f = some (.slot k)) ∧
        (s.prepared events).lists.parent f = some .active := by
  have hp := h.prepared hpc hset
  by_cases hmem : f ∈ targets s.epollSet events
  · exact Or.inr ⟨h.target_parent hpc hset hmem,
      (hp.linked.mem_iff _ _).mp ((hp.active f).mpr hmem)⟩
  · left
    apply Option.ext
    intro l
    rw [← hp.linked.mem_iff, ← h.frames.linked.mem_iff]
    by_cases hl : l = .active
    · rw [hl, hp.active, h.frames.active (by simp [hpc])]
      simp [hmem]
    · rw [hp.others l hl]
      simp [Sys.emit, hmem]

theorem prepared_wheel (h : Inv n s) (hpc : s.pc .main = .loopHead) {events : Events}
    (hset : ∀ e ∈ events, (s.epollSet e.1).isSome) : (s.prepared events).wheel = s.wheel := by
  rw [(h.prepared hpc hset).rest]
  rfl

theorem prepared_seq_timeout (h : Inv n s) (hpc : s.pc .main = .loopHead) {events : Events}
    (hset : ∀ e ∈ events, (s.epollSet e.1).isSome) :
    (s.prepared events).lists.seq .timeout = [] := by
  rw [(h.prepared hpc hset).others _ (by simp)]
  simp [Sys.emit, h.seq_timeout]

/-- Taking the expired items keeps the lists well linked. -/
theorem taken_linked (h : Inv n s) (hpc : s.pc .main = .loopHead) {events : Events}
    (hset : ∀ e ∈ events, (s.epollSet e.1).isSome) (tick : Nat) :
    (takeAllTimeout (s.prepared events).wheel (s.prepared events).lists tick
      .timeout).2.WellLinked :=
  wellLinked_takeAllTimeout (h.prepared hpc hset).linked tick (by simp)

/-- The whole iteration, in terms of the state after the preparation. -/
theorem iterate_eq (h : Inv n s) (events : Events) (tick : Nat) :
    s.iterate events tick =
      { s.prepared events with
        coroutines := Function.update (s.prepared events).coroutines .main
          { (s.prepared events).coroutines .main with pc := .draining }
        now := tick
        wheel := (takeAllTimeout (s.prepared events).wheel (s.prepared events).lists tick
          .timeout).1
        lists := (takeAllTimeout (s.prepared events).wheel (s.prepared events).lists tick
          .timeout).2.splice .active .timeout
        frames := fun f =>
          if f ∈ s.due events tick then
            ((s.prepared events).frames f).map fun fr => { fr with timeout := true }
          else (s.prepared events).frames f
        trace := (s.prepared events).trace ++ [.clock tick] ++
          (s.due events tick).map .activated } := by
  have hmemset : TimerLists.memset s.lists .timeout = s.lists :=
    TimerLists.memset_of_empty h.seq_timeout
  simp only [Sys.iterate, TimerLists.join_eq_splice]
  rw [show { s.emit [.epollWait] with
    lists := TimerLists.memset (s.emit [.epollWait]).lists .timeout } = s.emit [.epollWait] by
      simp [Sys.emit, hmemset]]
  rfl

/-- The active list has what the events have activated and, behind it, what was due. -/
theorem iterate_active (h : Inv n s) (events : Events) (tick : Nat) :
    (s.iterate events tick).lists.seq .active =
      (s.prepared events).lists.seq .active ++ s.due events tick := by
  rw [h.iterate_eq]
  simp [LinkedSeqs.splice, Sys.due, seq_takeAllTimeout_of_ne]

/-- An iteration moves items from the slots to the active list and nowhere else. -/
theorem iterate_parent (h : Inv n s) (hpc : s.pc .main = .loopHead) {events : Events}
    (hset : ∀ e ∈ events, (s.epollSet e.1).isSome) (tick : Nat) (f : FrameId) :
    (s.iterate events tick).lists.parent f = s.lists.parent f ∨
      (∃ k, s.lists.parent f = some (.slot k)) ∧
        (s.iterate events tick).lists.parent f = some .active := by
  have hp := h.prepared hpc hset
  have hprep := h.prepared_parent hpc hset f
  -- Taking the expired items goes through the timeout list.
  have htake := parent_takeAllTimeout (w := (s.prepared events).wheel) hp.linked tick f
  rw [h.iterate_eq]
  simp only [LinkedSeqs.splice, (h.taken_linked hpc hset tick).mem_iff]
  rcases htake with heq | ⟨⟨k, hk⟩, heq⟩
  · have hne : (s.prepared events).lists.parent f ≠ some .timeout := by
      intro hto
      have hmem := (hp.linked.mem_iff _ _).mpr hto
      simp [h.prepared_seq_timeout hpc hset] at hmem
    rw [heq, if_neg hne]
    exact hprep
  · rw [heq, if_pos rfl]
    refine Or.inr ⟨?_, rfl⟩
    rcases hprep with hprep | ⟨hk', -⟩
    · exact ⟨k, hprep ▸ hk⟩
    · exact hk'

end Inv

end Libcr
