import Libcr.Foundations.Writes
import Libcr.Scheduler.Masks
import Libcr.Scheduler.OnTime
import Libcr.Scheduler.Ownership

/-!
# The answer of a `poll_inner` call

`prepare_poll_event` writes the events of an item into the shadow array and counts them, one
event after the other, while the coroutine sleeps; on its return `poll_inner` hands out the
array and the count. An item is prepared at most once in a suspension: the first event of a
call puts its timer item on the active list, the call has returned before the list is empty,
and `epoll_wait` is not called before that. So the count is the number of entries with
events.
-/

namespace Libcr

open Sys (Events)

/-- What a batch of events writes into the shadow array of the call `f`. -/
def raised (set : Fd → Option Registration) (events : Events) (f : FrameId) :
    List (Nat × BitVec 16) :=
  events.filterMap fun e => (set e.1).bind fun r =>
    if r.frame = f then some (r.item, epollEventToPoll e.2) else none

theorem mem_raised {set : Fd → Option Registration} {events : Events} {f : FrameId} {i : Nat}
    {m : BitVec 16} : (i, m) ∈ raised set events f ↔
      ∃ e ∈ events, ∃ r, set e.1 = some r ∧ r.frame = f ∧ r.item = i ∧
        m = epollEventToPoll e.2 := by
  simp only [raised, List.mem_filterMap, Option.bind_eq_some_iff, Option.ite_none_right_eq_some,
    Option.some.injEq, Prod.mk.injEq]
  constructor
  · rintro ⟨e, he, r, hr, hf, hi, hm⟩
    exact ⟨e, he, r, hr, hf, hi, hm.symm⟩
  · rintro ⟨e, he, r, hr, hf, hi, hm⟩
    exact ⟨e, he, r, hr, hf, hi, hm.symm⟩

/-- A call that no event of the batch is for is left alone. -/
theorem raised_of_notMem {set : Fd → Option Registration} {events : Events} {f : FrameId}
    (h : f ∉ targets set events) : raised set events f = [] := by
  rw [List.eq_nil_iff_forall_not_mem]
  rintro ⟨i, m⟩ him
  obtain ⟨e, he, r, hr, rfl, -⟩ := mem_raised.mp him
  exact h (List.mem_filterMap.mpr ⟨e, he, by rw [hr]; rfl⟩)

/-- The call has had these writes to its shadow array, each of which was counted. -/
structure PollFrame.Raised (fr : PollFrame) (ws : List (Nat × BitVec 16)) (fr' : PollFrame) :
    Prop where
  revents : fr'.revents = writeAll fr.revents ws
  raiseCnt : fr'.raiseCnt = fr.raiseCnt + ws.length

namespace PollFrame.Raised

variable {fr fr' fr'' : PollFrame} {ws ws' : List (Nat × BitVec 16)}

theorem refl (fr : PollFrame) : fr.Raised [] fr := ⟨rfl, rfl⟩

theorem trans (h : fr.Raised ws fr') (h' : fr'.Raised ws' fr'') : fr.Raised (ws ++ ws') fr'' where
  revents := by rw [h'.revents, h.revents, writeAll_append]
  raiseCnt := by rw [h'.raiseCnt, h.raiseCnt, List.length_append, Nat.add_assoc]

end PollFrame.Raised

section Batch

variable {s : Sys}

theorem epollSet_preparePollEvent (r : Registration) (m : BitVec 32) :
    (s.preparePollEvent r m).epollSet = s.epollSet := by
  unfold Sys.preparePollEvent
  split
  · rfl
  · dsimp only
    split <;> rfl

/-- `prepare_poll_event` writes to the call of its item only. -/
theorem raised_preparePollEvent {f : FrameId} {fr : PollFrame} (hfr : s.frames f = some fr)
    (r : Registration) (m : BitVec 32) :
    ∃ fr', (s.preparePollEvent r m).frames f = some fr' ∧
      fr.Raised (if r.frame = f then [(r.item, epollEventToPoll m)] else []) fr' := by
  by_cases hf : r.frame = f
  · subst hf
    rw [if_pos rfl]
    unfold Sys.preparePollEvent
    rw [hfr]
    dsimp only
    split
    · exact ⟨_, Function.update_self .., rfl, rfl⟩
    · exact ⟨_, Function.update_self .., rfl, rfl⟩
  · rw [if_neg hf]
    refine ⟨fr, ?_, .refl fr⟩
    unfold Sys.preparePollEvent
    split
    · exact hfr
    · dsimp only
      split
      · exact (Function.update_of_ne (Ne.symm hf) ..).trans hfr
      · exact (Function.update_of_ne (Ne.symm hf) ..).trans hfr

theorem raised_prepareAll {f : FrameId} {fr : PollFrame} (hfr : s.frames f = some fr)
    (events : Events) :
    ∃ fr', (s.prepareAll events).frames f = some fr' ∧
      fr.Raised (raised s.epollSet events f) fr' := by
  unfold Sys.prepareAll
  induction events generalizing s fr with
  | nil => exact ⟨fr, hfr, .refl fr⟩
  | cons e rest ih =>
      rw [List.foldl_cons]
      cases hset : s.epollSet e.1 with
      | none =>
          have hraised : raised s.epollSet (e :: rest) f = raised s.epollSet rest f := by
            simp [raised, hset]
          rw [hraised]
          exact ih hfr
      | some r =>
          obtain ⟨fr₁, hfr₁, hraised₁⟩ := raised_preparePollEvent hfr r e.2
          obtain ⟨fr₂, hfr₂, hraised₂⟩ := ih hfr₁
          refine ⟨fr₂, hfr₂, ?_⟩
          have hsplit : raised s.epollSet (e :: rest) f =
              (if r.frame = f then [(r.item, epollEventToPoll e.2)] else []) ++
                raised s.epollSet rest f := by
            by_cases hf : r.frame = f <;> simp [raised, hset, hf]
          rw [hsplit]
          rw [epollSet_preparePollEvent] at hraised₂
          exact hraised₁.trans hraised₂

end Batch

/-- A call that has had no event has nothing in its shadow array. -/
def Sys.Blank (s : Sys) : Prop :=
  ∀ f fr, s.frames f = some fr → fr.allEventDetatch = false →
    fr.revents = fr.fds.map (fun _ => 0) ∧ fr.raiseCnt = 0

/-- A call has counted no event exactly when none was delivered to it. -/
def Sys.Noted (s : Sys) : Prop :=
  ∀ f fr, s.frames f = some fr → (fr.raiseCnt = 0 ↔ .delivered f ∉ s.trace)

/-- A call on the active list that has counted no event was put there by its timer. -/
def Sys.TimedOut (s : Sys) : Prop :=
  ∀ f fr, s.frames f = some fr → s.lists.parent f = some .active → fr.raiseCnt = 0 →
    fr.timeout = true

/-- What is registered for an item is the translation of what its entry asks for. -/
def Sys.Masked (s : Sys) : Prop :=
  ∀ fd r fr p, s.epollSet fd = some r → s.frames r.frame = some fr →
    fr.fds[r.item]? = some p → r.events = pollEventToEpoll p.events

section Steps

variable {n : Nat} {s s' : Sys} {a : Act}

/-- What an iteration writes into the shadow array of a live call. A call that was due is
marked. -/
theorem Inv.iterate_raised (h : Inv n s) {events : Events} {tick : Nat} {f : FrameId}
    {fr fr' : PollFrame} (hfr : s.frames f = some fr)
    (hfr' : (s.iterate events tick).frames f = some fr') :
    fr.Raised (raised s.epollSet events f) fr' ∧
      (f ∈ s.due events tick → fr'.timeout = true) := by
  obtain ⟨fr₁, hprep, hraised⟩ : ∃ fr₁, (s.prepared events).frames f = some fr₁ ∧
      fr.Raised (raised s.epollSet events f) fr₁ :=
    raised_prepareAll (s := s.emit [.epollWait]) hfr events
  rw [h.iterate_eq] at hfr'
  dsimp only at hfr'
  split at hfr'
  · rw [hprep, Option.map_some, Option.some.injEq] at hfr'
    subst hfr'
    exact ⟨⟨hraised.revents, hraised.raiseCnt⟩, fun _ => rfl⟩
  · next hdue =>
      rw [hprep, Option.some.injEq] at hfr'
      subst hfr'
      exact ⟨hraised, fun hmem => absurd hmem hdue⟩

/-- After an iteration the shadow array of a live call holds the events of the batch. -/
theorem Inv.iterate_answer (h : Inv n s) (hblank : s.Blank) (hpc : s.pc .main = .loopHead)
    {events : Events} (hset : ∀ e ∈ events, (s.epollSet e.1).isSome) {tick : Nat} {f : FrameId}
    {fr fr' : PollFrame} (hfr : s.frames f = some fr)
    (hfr' : (s.iterate events tick).frames f = some fr') :
    fr'.fds = fr.fds ∧
      fr'.revents = writeAll (fr.fds.map fun _ => 0) (raised s.epollSet events f) ∧
      fr'.raiseCnt = (raised s.epollSet events f).length := by
  obtain ⟨fr₁, hfr₁, -, hfds, -⟩ := h.iterate_origin hpc hset tick hfr'
  obtain rfl : fr = fr₁ := Option.some_inj.mp (hfr.symm.trans hfr₁)
  obtain ⟨hrevents, hcount⟩ := hblank f fr hfr (h.attached hpc hfr)
  have hraised := (h.iterate_raised hfr hfr').1
  refine ⟨hfds, ?_, ?_⟩
  · rw [hraised.revents, hrevents]
  · rw [hraised.raiseCnt, hcount, Nat.zero_add]

theorem Transition.blank (htr : Transition n s a s') (h : Inv n s) (hblank : s.Blank) :
    s'.Blank := by
  intro f fr hfr hflag
  cases htr.frame_origin hfr with
  | @iterated events tick hpc hset =>
      obtain ⟨fr₀, hfr₀, -, -, -, hdetached⟩ := h.iterate_origin hpc hset tick hfr
      rw [hflag, eq_comm, decide_eq_false_iff_not] at hdetached
      obtain ⟨hfds, hrevents, hcount⟩ := h.iterate_answer hblank hpc hset hfr₀ hfr
      rw [raised_of_notMem hdetached] at hrevents hcount
      rw [hfds]
      exact ⟨hrevents, hcount⟩
  | untouched _ hold => exact hblank f fr hold hflag
  | suspended _ hframe =>
      rw [hframe]
      exact ⟨rfl, rfl⟩

/-- Only `epoll_wait` delivers events. -/
theorem Transition.delivered_mem (htr : Transition n s a s') (h : Inv n s)
    (ha : ∀ events tick, a ≠ .iterate events tick) (f : FrameId) :
    .delivered f ∈ s'.trace ↔ .delivered f ∈ s.trace := by
  obtain ⟨os, hos, hrecords⟩ := htr.records h
  have hnone : .delivered f ∉ os := by
    intro hmem
    have hrecord := hrecords _ hmem
    cases a with
    | iterate events tick => exact ha events tick rfl
    | _ => simp [Act.records] at hrecord
  rw [hos, List.mem_append, or_iff_left hnone]

theorem delivered_preparePollEvent {r : Registration} {gr : PollFrame}
    (hgr : s.frames r.frame = some gr) (m : BitVec 32) (f : FrameId) :
    .delivered f ∈ (s.preparePollEvent r m).trace ↔ .delivered f ∈ s.trace ∨ f = r.frame := by
  unfold Sys.preparePollEvent
  rw [hgr]
  dsimp only
  split
  · simp [Sys.setFrame, Sys.emit]
  · simp [Sys.setFrame, Sys.emit]

theorem noted_preparePollEvent (h : s.Noted) (r : Registration) (m : BitVec 32) :
    (s.preparePollEvent r m).Noted := by
  intro f fr hfr
  cases hgr : s.frames r.frame with
  | none =>
      have hdangling : s.preparePollEvent r m = s.emit [.dangling r.frame] := by
        simp [Sys.preparePollEvent, hgr]
      rw [hdangling] at hfr ⊢
      simpa [Sys.emit] using h f fr hfr
  | some gr =>
      rw [delivered_preparePollEvent hgr]
      by_cases hf : f = r.frame
      · subst hf
        obtain ⟨fr', hfr', hraised⟩ := raised_preparePollEvent hgr r m
        obtain rfl : fr = fr' := Option.some_inj.mp (hfr.symm.trans hfr')
        rw [hraised.raiseCnt, if_pos rfl]
        simp
      · rw [or_iff_left hf]
        refine h f fr ?_
        unfold Sys.preparePollEvent at hfr
        rw [hgr] at hfr
        dsimp only at hfr
        split at hfr
        · simpa only [Sys.setFrame, Sys.emit, Function.update_of_ne hf] using hfr
        · simpa only [Sys.setFrame, Sys.emit, Function.update_of_ne hf] using hfr

theorem Transition.noted (htr : Transition n s a s') (h : Inv n s)
    (hfresh : .delivered s.nextFrame ∉ s.trace) (hnoted : s.Noted) : s'.Noted := by
  intro f fr hfr
  cases htr.frame_origin hfr with
  | @iterated events tick =>
      have hstart : (s.emit [.epollWait]).Noted := by
        intro g gr hgr
        simpa [Sys.emit] using hnoted g gr hgr
      have hprep : (s.prepared events).Noted :=
        Sys.prepareAll_invariant (P := Sys.Noted) hstart
          (fun _ r m hu => noted_preparePollEvent hu r m) events
      rw [h.iterate_eq] at hfr ⊢
      have htrace : .delivered f ∈ (s.prepared events).trace ++ [.clock tick] ++
          (s.due events tick).map .activated ↔ .delivered f ∈ (s.prepared events).trace := by
        simp
      dsimp only at hfr ⊢
      rw [htrace]
      split at hfr
      · obtain ⟨fr₀, hfr₀, rfl⟩ := Option.map_eq_some_iff.mp hfr
        exact hprep f fr₀ hfr₀
      · exact hprep f fr hfr
  | untouched ha hold =>
      rw [htr.delivered_mem h ha]
      exact hnoted f fr hold
  | suspended hnew hframe =>
      rw [htr.delivered_mem h (by simp), hnew, hframe]
      exact iff_of_true rfl hfresh

theorem Transition.timedOut (htr : Transition n s a s') (h : Inv n s) (hcounted : s.Counted)
    (htimed : s.TimedOut) : s'.TimedOut := by
  have hcounted' := htr.counted h hcounted
  intro f fr hfr hparent hzero
  cases htr.frame_origin hfr with
  | @iterated events tick hpc hset =>
      obtain ⟨fr₀, hfr₀, -, -, -, hdetached⟩ := h.iterate_origin hpc hset tick hfr
      have hnot : f ∉ targets s.epollSet events := by
        intro hin
        have hpositive := hcounted' f fr hfr (by rw [hdetached, decide_eq_true hin])
        omega
      exact (h.iterate_raised hfr₀ hfr).2 (h.mem_due_of_active hpc hset hparent hnot)
  | untouched _ hold hsame => exact htimed f fr hold (hsame ▸ hparent) hzero
  | suspended _ _ hwaits => exact absurd hparent hwaits

/-- What is registered after a step was registered before it, or the step suspends the call
that has registered it. -/
theorem Transition.registered_cases (htr : Transition n s a s') (h : Inv n s) {fd : Fd}
    {r : Registration} (hr : s'.epollSet fd = some r) :
    s.epollSet fd = some r ∨ r.frame = s.nextFrame ∧ ∃ call p, a = .poll call ∧
      call.fds[r.item]? = some p ∧ r.events = pollEventToEpoll p.events := by
  rcases htr.epoll_cases h with ⟨hset, -⟩ | ⟨fd', rfl, rfl⟩ |
    ⟨t, call, rfl, -, -, -, -, rfl⟩ | ⟨last, ph, t, call, rfl, rfl⟩ |
    ⟨f, rest, fr, t, ph, rfl, -, -, rfl⟩
  · exact Or.inl (hset ▸ hr)
  · by_cases hfd : fd = fd'
    · simp [Sys.closeFd, Sys.emit, hfd] at hr
    · simp only [Sys.closeFd, Sys.emit, Function.update_of_ne hfd] at hr
      exact Or.inl hr
  · simp only [Sys.rejected, delEpoll_set, ite_eq_iff, reduceCtorEq, and_false, false_or] at hr
    rcases addEpoll_own hr.2 with hold | ⟨-, k, p, hp, rfl, rfl⟩
    · exact Or.inl hold
    · exact absurd ⟨hp.fd, p, List.mem_of_getElem? hp.entry, rfl⟩ hr.1
  · rcases addEpoll_own hr with hold | ⟨-, k, p, hp, rfl, rfl⟩
    · exact Or.inl hold
    · refine Or.inr ⟨rfl, call, p, rfl, ?_, rfl⟩
      rw [Nat.zero_add]
      exact hp.entry
  · simp only [Sys.woken, delEpoll_set, ite_eq_iff, reduceCtorEq, and_false, false_or] at hr
    exact Or.inl hr.2

theorem Transition.masked (htr : Transition n s a s') (h : Inv n s) (hmasked : s.Masked) :
    s'.Masked := by
  intro fd r fr' p hr hfr' hp
  rcases htr.frame_cases h hfr' with ⟨fr, hfr, hfds⟩ | ⟨hnew, call, hcall, hfds⟩
  · rcases htr.registered_cases h hr with hold | ⟨hframe, -⟩
    · exact hmasked fd r fr p hold hfr (hfds ▸ hp)
    · rw [hframe, h.frames.fresh _ (Nat.le_refl _)] at hfr
      simp at hfr
  · rcases htr.registered_cases h hr with hold | ⟨-, call', q, hcall', hq, hmask⟩
    · obtain ⟨-, fr, hfr, -⟩ := h.frames.registered fd r hold
      rw [hnew, h.frames.fresh _ (Nat.le_refl _)] at hfr
      simp at hfr
    · obtain rfl := Act.poll.inj (hcall.symm.trans hcall')
      rw [hfds, hq, Option.some.injEq] at hp
      rw [hmask, hp]

end Steps

namespace Sys.Reached

variable {ok : Sys → Act → Prop} {tick : Nat} {size : Int} {s : Sys}

theorem blank (h : Sys.Reached ok tick size s) : s.Blank := by
  refine h.induction (P := Sys.Blank) ?_ fun _ _ _ _ hinv _ htr hblank => htr.blank hinv hblank
  intro f fr hfr
  rw [init_frames] at hfr
  simp at hfr

/-- Events are delivered to calls that were made. -/
theorem delivered_lt (h : Sys.Reached ok tick size s) {f : FrameId}
    (hmem : .delivered f ∈ s.trace) : f < s.nextFrame := by
  revert f
  refine h.induction (P := fun s => ∀ {f}, .delivered f ∈ s.trace → f < s.nextFrame) ?_ ?_
  · intro f hmem
    exact absurd (init_trace hmem) (by simp [Obs.ofCreation])
  · intro u a v _ hinv _ htr hP f hmem
    refine Nat.lt_of_lt_of_le ?_ (htr.nextFrame_le hinv)
    obtain ⟨os, hos, hobs⟩ := htr.wakes_suspended hinv
    rw [hos, List.mem_append] at hmem
    rcases hmem with hmem | hmem
    · exact hP hmem
    · rcases hobs _ hmem with hquiet | ⟨g, ⟨gr, -, -, hgr, -⟩, hg⟩
      · simp [Obs.quiet] at hquiet
      · obtain rfl : f = g := by simpa using hg
        by_contra hge
        rw [hinv.frames.fresh f (Nat.le_of_not_lt hge)] at hgr
        simp at hgr

theorem noted (h : Sys.Reached ok tick size s) : s.Noted := by
  refine h.induction (P := Sys.Noted) ?_ fun _ _ _ hu hinv _ htr hnoted =>
    htr.noted hinv (fun hmem => absurd (delivered_lt hu hmem) (Nat.lt_irrefl _)) hnoted
  intro f fr hfr
  rw [init_frames] at hfr
  simp at hfr

theorem timedOut (h : Sys.Reached ok tick size s) : s.TimedOut := by
  refine h.induction (P := Sys.TimedOut) ?_ fun _ _ _ hu hinv _ htr htimed =>
    htr.timedOut hinv (counted hu) htimed
  intro f fr hfr
  rw [init_frames] at hfr
  simp at hfr

theorem masked (h : Sys.Reached ok tick size s) : s.Masked := by
  refine h.induction (P := Sys.Masked) ?_ fun _ _ _ _ hinv _ htr hmasked =>
    htr.masked hinv hmasked
  intro fd r fr p _ hfr
  rw [init_frames] at hfr
  simp at hfr

end Sys.Reached

/-- `epoll_wait` reports every descriptor at most once, with a mask that is not empty and
lies inside what is registered for it plus `EPOLLERR` and `EPOLLHUP`. -/
def Sys.KernelReports (s : Sys) : Act → Prop
  | .iterate events _ => (events.map Prod.fst).Nodup ∧
      ∀ e ∈ events, ∀ r, s.epollSet e.1 = some r →
        e.2 ≠ 0 ∧ e.2 &&& (r.events ||| epollErr ||| epollHup) = e.2
  | _ => True

/-- The shadow array has a place for every entry, with events that the entry may have, and
the count is that of the entries with events. -/
structure PollFrame.Tallied (fr : PollFrame) : Prop where
  length : fr.revents.length = fr.fds.length
  entries : ∀ (i : Nat) (p : PollFd), fr.fds[i]? = some p →
    ∃ r, fr.revents[i]? = some r ∧ (p.fd < 0 → r = 0) ∧
      r &&& (p.events ||| pollErr ||| pollHup) = r
  count : fr.raiseCnt = fr.revents.countP fun r => r ≠ 0

theorem blank_entry {fds : List PollFd} {i : Nat} {p : PollFd} (hp : fds[i]? = some p) :
    (fds.map fun _ => (0 : BitVec 16))[i]? = some 0 := by
  rw [List.getElem?_map, hp, Option.map_some]

/-- Writes of events to distinct entries of an empty array that are all counted. -/
theorem PollFrame.tallied_of_writes {fr : PollFrame} {ws : List (Nat × BitVec 16)}
    (hrevents : fr.revents = writeAll (fr.fds.map fun _ => 0) ws)
    (hcount : fr.raiseCnt = ws.length) (hnodup : (ws.map Prod.fst).Nodup)
    (hws : ∀ i m, (i, m) ∈ ws → ∃ p, fr.fds[i]? = some p ∧ -1 < p.fd ∧ m ≠ 0 ∧
      m &&& (p.events ||| pollErr ||| pollHup) = m) : fr.Tallied where
  length := by rw [hrevents, length_writeAll, List.length_map]
  entries := by
    intro i p hp
    have hzero := blank_entry hp
    rw [hrevents]
    by_cases hi : i ∈ ws.map Prod.fst
    · obtain ⟨⟨j, m⟩, hm, rfl⟩ := List.mem_map.mp hi
      obtain ⟨q, hq, hfd, -, hinside⟩ := hws j m hm
      obtain rfl : p = q := Option.some_inj.mp (hp.symm.trans hq)
      refine ⟨m, getElem?_writeAll_of_mem hnodup hm ?_, fun hneg => ?_, hinside⟩
      · exact (List.getElem?_eq_some_iff.mp hzero).1
      · exact absurd hfd (Int.not_lt.mpr (Int.le_sub_one_of_lt hneg))
    · exact ⟨0, (getElem?_writeAll_of_notMem hi).trans hzero, fun _ => rfl, BitVec.zero_and⟩
  count := by
    have hblank : (fr.fds.map fun _ => (0 : BitVec 16)).countP (fun r => decide (r ≠ 0)) = 0 := by
      rw [List.countP_eq_zero]
      intro r hr
      obtain ⟨p, -, rfl⟩ := List.mem_map.mp hr
      simp
    rw [hrevents, hcount, countP_writeAll hnodup, hblank, Nat.zero_add]
    rintro ⟨i, m⟩ hm
    obtain ⟨p, hp, -, hne, -⟩ := hws i m hm
    exact ⟨decide_eq_true hne, 0, blank_entry hp, by simp⟩

section Tally

variable {n : Nat} {s s' : Sys} {a : Act}

theorem map_fst_raised (set : Fd → Option Registration) (events : Events) (f : FrameId) :
    (raised set events f).map Prod.fst = (events.map Prod.fst).filterMap fun fd =>
      (set fd).bind fun r => if r.frame = f then some r.item else none := by
  rw [raised, List.map_filterMap, List.filterMap_map]
  congr 1
  funext e
  cases hset : set e.1 with
  | none => simp [hset]
  | some r => by_cases hf : r.frame = f <;> simp [hset, hf]

/-- The events of a batch for one call are for distinct entries of its array. -/
theorem Inv.nodup_raised (h : Inv n s) {events : Events}
    (hnodup : (events.map Prod.fst).Nodup) (f : FrameId) :
    ((raised s.epollSet events f).map Prod.fst).Nodup := by
  rw [map_fst_raised]
  refine hnodup.filterMap ?_
  -- An item is registered for the descriptor of its entry.
  have hback : ∀ {fd : Fd} {i : Nat}, i ∈ ((s.epollSet fd).bind fun r =>
      if r.frame = f then some r.item else none) →
      ∃ fr p, s.frames f = some fr ∧ fr.fds[i]? = some p ∧ p.fd = fd := by
    intro fd i hi
    simp only [Option.mem_def, Option.bind_eq_some_iff, Option.ite_none_right_eq_some,
      Option.some.injEq] at hi
    obtain ⟨r, hr, rfl, rfl⟩ := hi
    obtain ⟨-, fr, hfr, p, hp, hfd⟩ := h.frames.registered fd r hr
    exact ⟨fr, p, hfr, hp, hfd⟩
  intro fd fd' i hi hi'
  obtain ⟨fr, p, hfr, hp, rfl⟩ := hback hi
  obtain ⟨fr', p', hfr', hp', rfl⟩ := hback hi'
  obtain rfl : fr = fr' := Option.some_inj.mp (hfr.symm.trans hfr')
  rw [Option.some_inj.mp (hp.symm.trans hp')]

/-- What the kernel reports for an entry is translated to events the entry may have. -/
theorem Inv.raised_asked (h : Inv n s) (hmasked : s.Masked) {events : Events} {tick : Nat}
    (hkernel : s.KernelReports (.iterate events tick)) {f : FrameId} {fr : PollFrame}
    (hfr : s.frames f = some fr) {i : Nat} {m : BitVec 16}
    (hm : (i, m) ∈ raised s.epollSet events f) :
    ∃ p, fr.fds[i]? = some p ∧ -1 < p.fd ∧ m ≠ 0 ∧
      m &&& (p.events ||| pollErr ||| pollHup) = m := by
  obtain ⟨e, he, r, hr, rfl, rfl, rfl⟩ := mem_raised.mp hm
  obtain ⟨hfd, fr', hfr', p, hp, hpfd⟩ := h.frames.registered e.1 r hr
  obtain rfl : fr = fr' := Option.some_inj.mp (hfr.symm.trans hfr')
  obtain ⟨hne, hinside⟩ := hkernel.2 e he r hr
  rw [hmasked e.1 r fr p hr hfr hp] at hinside
  obtain ⟨z, hz, hreportable⟩ := PollFd.exists_of_reported hinside
  rw [hz, PollFd.epollEventToPoll_setWidth hreportable]
  refine ⟨p, hp, hpfd ▸ hfd, ?_, and_eq_left_trans hreportable p.reportable_asked⟩
  rintro rfl
  exact hne (hz.trans (by simp))

/-- A kernel that reports as it should keeps the answers right. -/
theorem Transition.tallied (htr : Transition n s a s') (h : Inv n s) (hblank : s.Blank)
    (hmasked : s.Masked) (hkernel : s.KernelReports a)
    (htallied : ∀ f fr, s.frames f = some fr → fr.Tallied) {f : FrameId} {fr : PollFrame}
    (hfr : s'.frames f = some fr) : fr.Tallied := by
  cases htr.frame_origin hfr with
  | @iterated events tick hpc hset =>
      obtain ⟨fr₀, hfr₀, -⟩ := h.iterate_origin hpc hset tick hfr
      obtain ⟨hfds, hrevents, hcount⟩ := h.iterate_answer hblank hpc hset hfr₀ hfr
      rw [← hfds] at hrevents
      refine PollFrame.tallied_of_writes hrevents hcount (h.nodup_raised hkernel.1 f) ?_
      intro i m hm
      rw [hfds]
      exact h.raised_asked hmasked hkernel hfr₀ hm
  | untouched _ hold => exact htallied f fr hold
  | suspended _ hframe =>
      rw [hframe]
      exact @PollFrame.tallied_of_writes _ [] rfl rfl List.nodup_nil (by simp)

theorem Sys.Reached.tallied {tick : Nat} {size : Int}
    (h : Sys.Reached Sys.KernelReports tick size s) {f : FrameId} {fr : PollFrame}
    (hfr : s.frames f = some fr) : fr.Tallied := by
  revert f fr
  refine h.induction (P := fun s => ∀ {f fr}, s.frames f = some fr → fr.Tallied) ?_ ?_
  · intro f fr hfr
    rw [init_frames] at hfr
    simp at hfr
  · intro u a v hu hinv hok htr htallied f fr hfr
    exact htr.tallied hinv hu.blank hu.masked hok (fun _ _ => htallied) hfr

end Tally

section Answer

variable {tick : Nat} {size : Int} {s v w w' : Sys}

/-- A call keeps its array while it is live. -/
theorem Sys.Reached.fds_kept {ok : Sys → Act → Prop} (hv : Sys.Reached ok tick size v)
    {f : FrameId} {fds : List PollFd} (hlt : f < v.nextFrame)
    (hfds : ∀ fr, v.frames f = some fr → fr.fds = fds) (hrun : Reaches Sys.step ok v w) :
    ∀ fr, w.frames f = some fr → fr.fds = fds := by
  have hboth : f < w.nextFrame ∧ ∀ fr, w.frames f = some fr → fr.fds = fds := by
    refine hrun.invariant (P := fun w => f < w.nextFrame ∧
      ∀ fr, w.frames f = some fr → fr.fds = fds) ⟨hlt, hfds⟩ ?_
    rintro u a u' hu ⟨hlt, hfds⟩ - hstep
    have hinv : Inv size.toNat u := Sys.Reached.inv (Reaches.trans hv hu)
    have htr := hinv.step_transition hstep
    refine ⟨Nat.lt_of_lt_of_le hlt (htr.nextFrame_le hinv), ?_⟩
    intro fr' hfr'
    rcases htr.frame_cases hinv hfr' with ⟨fr, hfr, heq⟩ | ⟨rfl, -⟩
    · exact heq.trans (hfds fr hfr)
    · exact absurd hlt (Nat.lt_irrefl _)
  exact hboth.2

/-- What is left of a call that has fallen asleep. -/
theorem Inv.suspended_frame {n : Nat} (h : Inv n s) {t : TaskId} {ph : Phase} {call : PollCall}
    (hcurr : s.curr = some (.worker t)) (hstep : s.step (.poll call) = some v)
    (hsleep : v.pc (.worker t) = .polling ph s.nextFrame) :
    s.nextFrame < v.nextFrame ∧ v.frames s.nextFrame = some (s.frameAt t call) ∧
      v.epollSet = (s.register call).1 ∧ (s.register call).2.2 = false := by
  cases h.step_transition hstep with
  | expired ht hcurr' hpc =>
      obtain rfl := Sys.worker_unique hcurr' hcurr
      exact absurd (hpc.symm.trans hsleep) (by simp)
  | fallback ht hcurr' hpc =>
      obtain rfl := Sys.worker_unique hcurr' hcurr
      exact absurd (hpc.symm.trans hsleep) (by simp)
  | reject ht hcurr' hpc =>
      obtain rfl := Sys.worker_unique hcurr' hcurr
      exact absurd (hpc.symm.trans hsleep) (by simp)
  | suspend ht hcurr' hpc hlast hfix hreg hacc =>
      obtain rfl := Sys.worker_unique hcurr' hcurr
      exact ⟨Nat.lt_succ_self _, Function.update_self .., rfl, hreg⟩

/-- A task that sleeps in a call and does not after a step was woken: the call returns what
is in its shadow array. -/
theorem Inv.answers {n : Nat} (h : Inv n w) {t : TaskId} (ht : t < n) {ph : Phase}
    {f : FrameId} {a : Act} (hsleep : w.pc (.worker t) = .polling ph f)
    (hstep : w.step a = some w') (hawake : w'.pc (.worker t) ≠ .polling ph f) :
    ∃ fr os, w.frames f = some fr ∧ w.lists.parent f = some .active ∧
      w'.pc (.worker t) = .user ph ∧
      w'.trace = w.trace ++ (os ++ [.polled (.worker t) fr.raiseCnt none fr.revents]) := by
  obtain ⟨fr, hfr, -⟩ := h.frames.asleep t ht ph f hsleep
  rcases (h.step_transition hstep).asleep h ht ⟨hsleep, fr, hfr, rfl, rfl⟩ with
    hstill | ⟨fr', hfr', -, -, hparent, rfl⟩
  · exact absurd hstill.pc hawake
  · refine ⟨fr', [Obs.processed f, Obs.index ((w.callstack.length : Int) - 1),
      Obs.index w.callstack.length] ++ (delEpoll f fr'.fds w.epollSet).2, hfr', hparent, ?_, ?_⟩
    · rw [Sys.pc_woken, Function.update_self]
    · rw [List.append_assoc]
      rfl

/-- When a `poll_inner` call that was suspended returns, it has written an answer to every
entry of its array: none to the entries without a descriptor, and to the others events they
ask for, errors and hang-ups. It returns the number of entries with events. That is zero
exactly when its timer has fired and no event was delivered to it. -/
theorem poll_answers {t : TaskId} {ph : Phase} {call : PollCall} {a : Act}
    (h : Sys.Reached Sys.KernelReports tick size s) (hcurr : s.curr = some (.worker t))
    (hpoll : s.step (.poll call) = some v)
    (hsuspends : v.pc (.worker t) = .polling ph s.nextFrame)
    (hrun : Reaches Sys.step Sys.KernelReports v w)
    (hsleep : w.pc (.worker t) = .polling ph s.nextFrame) (hwake : w.step a = some w')
    (hawake : w'.pc (.worker t) ≠ .polling ph s.nextFrame) :
    ∃ (ret : Int) (revents : List (BitVec 16)) (os : List Obs),
      w'.trace = w.trace ++ (os ++ [.polled (.worker t) ret none revents]) ∧
      w'.pc (.worker t) = .user ph ∧ revents.length = call.fds.length ∧
      (∀ (i : Nat) (p : PollFd), call.fds[i]? = some p → ∃ r, revents[i]? = some r ∧
        (p.fd < 0 → r = 0) ∧ r &&& (p.events ||| pollErr ||| pollHup) = r) ∧
      ret = revents.countP (fun r => r ≠ 0) ∧
      (ret = 0 ↔ (∃ fr, w.frames s.nextFrame = some fr ∧ fr.timeout = true) ∧
        .delivered s.nextFrame ∉ w.trace) := by
  have hv : Sys.Reached Sys.KernelReports tick size v := h.snoc (a := .poll call) trivial hpoll
  have hw : Sys.Reached Sys.KernelReports tick size w := Reaches.trans hv hrun
  have ht : t < size.toNat := h.inv.discipline.mem_main t (List.mem_of_getLast? hcurr)
  obtain ⟨hlt, hframe, -⟩ := h.inv.suspended_frame hcurr hpoll hsuspends
  obtain ⟨fr, os, hfr, hparent, hpc, htrace⟩ := hw.inv.answers ht hsleep hwake hawake
  have hfds : fr.fds = call.fds := by
    refine hv.fds_kept hlt ?_ hrun fr hfr
    intro fr' hfr'
    rw [← Option.some_inj.mp (hframe.symm.trans hfr')]
    rfl
  have htallied := hw.tallied hfr
  refine ⟨fr.raiseCnt, fr.revents, os, htrace, hpc, hfds ▸ htallied.length,
    hfds ▸ htallied.entries, by rw [htallied.count], ?_⟩
  rw [Int.natCast_eq_zero, ← hw.noted _ fr hfr]
  constructor
  · intro hzero
    exact ⟨⟨fr, hfr, hw.timedOut _ fr hfr hparent hzero⟩, hzero⟩
  · exact fun hand => hand.2

end Answer

/-- A task polls the descriptor 5 for input, and the kernel reports it. -/
theorem poll_answers_input :
    ∃ (ret : Int) (revents : List (BitVec 16)) (os : List Obs),
      ((asleepSys 10 1000).iterate [(5, epollIn)] 1000).drain.trace =
        ((asleepSys 10 1000).iterate [(5, epollIn)] 1000).trace ++
          (os ++ [.polled (.worker 0) ret none revents]) ∧
      revents.length = 1 ∧ ret = revents.countP (fun r => r ≠ 0) ∧ ret ≠ 0 := by
  have hspawn : (Sys.init 1000 1).step (.newTask plainAttr) =
      some ((Sys.init 1000 1).newTask .main .main plainAttr).1 := rfl
  have hpoll : ((Sys.init 1000 1).newTask .main .main plainAttr).1.step
      (.poll (plainPoll 5 10 1000)) = some (((Sys.init 1000 1).newTask .main .main
        plainAttr).1.pollInner (.worker 0) .fn 0 (plainPoll 5 10 1000)) := rfl
  have hkernel : (asleepSys 10 1000).KernelReports (.iterate [(5, epollIn)] 1000) := by
    refine ⟨List.nodup_singleton _, ?_⟩
    intro e he r hr
    obtain rfl := List.mem_singleton.mp he
    obtain rfl : ⟨0, 0, 1⟩ = r := Option.some_inj.mp hr
    exact ⟨by decide, by decide⟩
  have hreached : Sys.Reached Sys.KernelReports 1000 1
      ((Sys.init 1000 1).newTask .main .main plainAttr).1 :=
    (Reaches.refl _).snoc (a := Act.newTask plainAttr) trivial hspawn
  have hrun : Reaches Sys.step Sys.KernelReports (((Sys.init 1000 1).newTask .main .main
      plainAttr).1.pollInner (.worker 0) .fn 0 (plainPoll 5 10 1000))
      ((asleepSys 10 1000).iterate [(5, epollIn)] 1000) :=
    ((Reaches.refl _).snoc (a := Act.eventloop 1000) trivial rfl).snoc hkernel rfl
  obtain ⟨ret, revents, os, htrace, -, hlength, -, hcount, hzero⟩ :=
    poll_answers (a := .drain) hreached rfl hpoll rfl hrun rfl rfl
      (by decide +kernel)
  refine ⟨ret, revents, os, htrace, hlength, hcount, ?_⟩
  intro hret
  exact (hzero.mp hret).2 (by decide +kernel)

end Libcr
