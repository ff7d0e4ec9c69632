import Mathlib.Data.List.Dedup
import Libcr.Scheduler.Revents

/-!
# One descriptor in several entries

`poll` takes one entry for each interest in a descriptor, while an epoll set has one
registration for each descriptor. `poll_inner` adds the entries one after the other, and the
`EPOLL_CTL_ADD` for a descriptor that an earlier entry has registered fails with `EEXIST`,
which is ignored. Such an entry is never answered. So an array is answered as the native
`poll` does it exactly when all of its entries with a descriptor get registered, for events
that are not lost in the translation.
-/

namespace Libcr

open Sys (Events)

/-- The number of events that the event loop has room for in a call of `epoll_wait`. -/
def kEpollSize : Nat := 10240

/-- What the native `poll` answers to an entry, when the descriptors are ready for these
events. -/
def PollFd.native (ready : Fd → BitVec 16) (p : PollFd) : BitVec 16 :=
  if -1 < p.fd then ready p.fd &&& (p.events ||| pollErr ||| pollHup) else 0

/-- `epoll_wait` reports what is ready: every registered descriptor with the events that it
is ready for and that are registered for it, errors and hang-ups. -/
structure Sys.ReportsReady (s : Sys) (ready : Fd → BitVec 16) (events : Events) : Prop where
  nodup : (events.map Prod.fst).Nodup
  mem_iff : ∀ fd m, (fd, m) ∈ events ↔ m ≠ 0 ∧ ∃ r, s.epollSet fd = some r ∧
    m = (ready fd).setWidth 32 &&& (r.events ||| epollErr ||| epollHup)
  room : events.length ≤ kEpollSize

/-- A call that is made in this step is not for one of these descriptors. -/
def Sys.LeavesAlone (fds : List PollFd) (_ : Sys) : Act → Prop
  | .poll call => ∀ fd, watched call.fds fd → ¬ watched fds fd
  | _ => True

/-- A suspension of a `poll_inner` call for the array `fds` that an event ends. No other
coroutine polls these descriptors, a closed descriptor is not ready, and `epoll_wait`
reports what is ready in the iteration that the call is woken in. The call returns
`revents`. -/
structure EventWakeUp (fds : List PollFd) (addErr : Nat → Option Errno)
    (ready : Fd → BitVec 16) (revents : List (BitVec 16)) where
  tick : Nat
  size : Int
  task : TaskId
  phase : Phase
  call : PollCall
  fds_eq : call.fds = fds
  addErr_eq : call.addErr = addErr
  /-- The state in which the call is made. -/
  called : Sys
  reached : Sys.Reached always tick size called
  curr : called.curr = some (.worker task)
  alone : ∀ f fr fd, called.frames f = some fr → watched fr.fds fd → ¬ watched fds fd
  suspended : Sys
  poll : called.step (.poll call) = some suspended
  suspends : suspended.pc (.worker task) = .polling phase called.nextFrame
  /-- The state before the iteration that delivers the event. -/
  waiting : Sys
  wait : Reaches Sys.step (Sys.LeavesAlone fds) suspended waiting
  closed : ∀ os fd, waiting.trace = suspended.trace ++ os → .closed fd ∈ os → ready fd = 0
  events : Events
  reports : waiting.ReportsReady ready events
  now : Nat
  prepared : Sys
  iterate : waiting.step (.iterate events now) = some prepared
  event : called.nextFrame ∈ targets waiting.epollSet events
  /-- The state before the call returns. -/
  returning : Sys
  drain : Reaches Sys.step (Sys.LeavesAlone fds) prepared returning
  sleeps : returning.pc (.worker task) = .polling phase called.nextFrame
  act : Act
  returned : Sys
  wake : returning.step act = some returned
  awake : returned.pc (.worker task) ≠ .polling phase called.nextFrame
  ret : Int
  answer : returned.trace.getLast? = some (.polled (.worker task) ret none revents)

/-- What a run in which nobody else polls the descriptors of the array `fds` of the call `f`
leaves of what was registered in `v`. -/
structure Undisturbed (v : Sys) (f : FrameId) (fds : List PollFd) (u : Sys) : Prop where
  lt : f < u.nextFrame
  apart : ∀ g gr fd, g ≠ f → u.frames g = some gr → watched gr.fds fd → ¬ watched fds fd
  own : ∀ fd r, r.frame = f → u.epollSet fd = some r → v.epollSet fd = some r
  kept : u.frames f ≠ none → ∀ os, u.trace = v.trace ++ os → ∀ fd r, r.frame = f →
    v.epollSet fd = some r → .closed fd ∉ os → u.epollSet fd = some r

section Runs

variable {n : Nat} {u u' v w : Sys} {a : Act} {f : FrameId} {fds : List PollFd}

theorem Undisturbed.step (hsame : Undisturbed v f fds u) (htr : Transition n u a u')
    (h : Inv n u) (hext : ∃ os, u.trace = v.trace ++ os)
    (hwatched : ∀ fd r, r.frame = f → v.epollSet fd = some r → watched fds fd)
    (ha : Sys.LeavesAlone fds u a) : Undisturbed v f fds u' := by
  refine
    { lt := Nat.lt_of_lt_of_le hsame.lt (htr.nextFrame_le h)
      apart := ?_
      own := ?_
      kept := ?_ }
  · intro g gr' fd hg hgr' hw
    rcases htr.frame_cases h hgr' with ⟨gr, hgr, hfds⟩ | ⟨-, call, rfl, hfds⟩
    · exact hsame.apart g gr fd hg hgr (hfds ▸ hw)
    · exact ha fd (hfds ▸ hw)
  · intro fd r hf hr
    rcases htr.registered_cases h hr with hold | ⟨hnew, -⟩
    · exact hsame.own fd r hf hold
    · exact absurd (hf.symm.trans hnew) (Nat.ne_of_lt hsame.lt)
  · intro hlive os' hos' fd r hf hr hclosed
    obtain ⟨os, hos⟩ := hext
    obtain ⟨os₁, hos₁, -⟩ := htr.records h
    have hsplit : os' = os ++ os₁ := by
      rw [hos₁, hos, List.append_assoc] at hos'
      exact (List.append_cancel_left hos').symm
    rw [hsplit, List.mem_append, not_or] at hclosed
    have hlive' : u.frames f ≠ none := by
      obtain ⟨fr', hfr'⟩ := Option.ne_none_iff_exists'.mp hlive
      rcases htr.frame_cases h hfr' with ⟨fr, hfr, -⟩ | ⟨rfl, -⟩
      · simp [hfr]
      · exact absurd hsame.lt (Nat.lt_irrefl _)
    have hold := hsame.kept hlive' os hos fd r hf hr hclosed.1
    have hspared : u.Spares r.frame fd a := by
      cases a with
      | drain =>
          intro g rest gr _ hgr hw
          by_contra hg
          exact hsame.apart g gr fd (hf ▸ hg) hgr hw (hwatched fd r hf hr)
      | poll call => exact fun _ _ _ _ _ hw => ha fd hw (hwatched fd r hf hr)
      | _ => trivial
    exact htr.registration_spared h hspared hos₁ hold (hf ▸ hlive) hclosed.2

/-- The registrations of a call while nobody else polls its descriptors. -/
theorem Sys.Reached.undisturbed {tick : Nat} {size : Int} (hv : Sys.Reached always tick size v)
    (hlt : f < v.nextFrame)
    (hapart : ∀ g gr fd, g ≠ f → v.frames g = some gr → watched gr.fds fd → ¬ watched fds fd)
    (hwatched : ∀ fd r, r.frame = f → v.epollSet fd = some r → watched fds fd)
    (hrun : Reaches Sys.step (Sys.LeavesAlone fds) v w) : Undisturbed v f fds w := by
  refine hrun.invariant (P := Undisturbed v f fds) ?_ ?_
  · refine ⟨hlt, hapart, fun _ _ _ hr => hr, ?_⟩
    exact fun _ _ _ _ _ _ hr _ => hr
  · intro u a u' hu hsame ha hstep
    have hrun' : Reaches Sys.step always v u := hu.mono fun _ _ _ => trivial
    have hinv : Inv size.toNat u := Sys.Reached.inv (Reaches.trans hv hrun')
    exact hsame.step (hinv.step_transition hstep) hinv (hv.run_extends hrun') hwatched ha

/-- A call on the active list is not changed before it returns. -/
theorem Inv.frame_kept {ok : Sys → Act → Prop} (h : Inv n v) {fr : PollFrame}
    (hactive : f ∈ v.lists.seq .active) (hfr : v.frames f = some fr)
    (hrun : Reaches Sys.step ok v w) {fr' : PollFrame} (hfr' : w.frames f = some fr') :
    fr' = fr := by
  have hlt : f < v.nextFrame := by
    by_contra hge
    rw [h.frames.fresh f (Nat.le_of_not_lt hge)] at hfr
    simp at hfr
  have hkept : Inv n w ∧ f < w.nextFrame ∧
      (w.frames f = none ∨ f ∈ w.lists.seq .active ∧ w.frames f = some fr) := by
    refine hrun.invariant (P := fun w => Inv n w ∧ f < w.nextFrame ∧
      (w.frames f = none ∨ f ∈ w.lists.seq .active ∧ w.frames f = some fr))
      ⟨h, hlt, Or.inr ⟨hactive, hfr⟩⟩ ?_
    rintro u a u' - ⟨hinv, hlt, hstate⟩ - hstep
    have htr := hinv.step_transition hstep
    refine ⟨htr.inv hinv, Nat.lt_of_lt_of_le hlt (htr.nextFrame_le hinv), ?_⟩
    cases ha : a.waits with
    | false =>
        obtain ⟨os, -, hwake⟩ := htr.wakeStep ha
        cases hwake with
        | other hframes hactive' =>
            rw [hframes, hactive']
            exact hstate
        | suspend hframes _ hactive' =>
            rw [hframes, hactive', Function.update_of_ne (Nat.ne_of_lt hlt)]
            exact hstate
        | @wake g _ _ hframes hactive' =>
            rw [hframes]
            by_cases hf : f = g
            · exact Or.inl (by rw [hf, Function.update_self])
            · rw [Function.update_of_ne hf]
              rw [hactive', List.mem_cons, or_iff_right hf] at hstate
              exact hstate
    | true =>
        -- `epoll_wait` is only called when the active list is empty.
        cases htr with
        | @iterate events tick hcurr hpc hset =>
            rcases hstate with hdead | ⟨hmem, -⟩
            · exact Or.inl (hinv.iterate_dead hpc hset tick hdead)
            · rw [hinv.frames.active (by simp [hpc])] at hmem
              exact absurd hmem List.not_mem_nil
        | _ => simp [Act.waits] at ha
  rcases hkept.2.2 with hdead | ⟨-, hlive⟩
  · rw [hdead] at hfr'
    simp at hfr'
  · exact Option.some_inj.mp (hfr'.symm.trans hlive)

theorem Inv.step_iterate (h : Inv n u) {events : Events} {tick : Nat}
    (hstep : u.step (.iterate events tick) = some u') :
    u' = u.iterate events tick ∧ u.pc .main = .loopHead ∧
      ∀ e ∈ events, (u.epollSet e.1).isSome := by
  cases h.step_transition hstep with
  | iterate hcurr hpc hset => exact ⟨rfl, hpc, hset⟩

end Runs

namespace EventWakeUp

variable {fds : List PollFd} {addErr : Nat → Option Errno} {ready : Fd → BitVec 16}
  {revents : List (BitVec 16)} (U : EventWakeUp fds addErr ready revents)
include U

theorem reached_suspended : Sys.Reached always U.tick U.size U.suspended :=
  U.reached.snoc trivial U.poll

theorem reached_waiting : Sys.Reached always U.tick U.size U.waiting :=
  Reaches.trans U.reached_suspended (U.wait.mono fun _ _ _ => trivial)

theorem reached_returning : Sys.Reached always U.tick U.size U.returning :=
  Reaches.trans (U.reached_waiting.snoc trivial U.iterate) (U.drain.mono fun _ _ _ => trivial)

/-- What the call registers when it is made. -/
theorem registers : U.called.nextFrame < U.suspended.nextFrame ∧
    U.suspended.frames U.called.nextFrame = some (U.called.frameAt U.task U.call) ∧
    U.suspended.epollSet = (U.called.register U.call).1 ∧
      (U.called.register U.call).2.2 = false :=
  U.reached.inv.suspended_frame U.curr U.poll U.suspends

/-- The array of the call while it is live. -/
theorem fds_waiting {fr : PollFrame} (hfr : U.waiting.frames U.called.nextFrame = some fr) :
    fr.fds = fds := by
  obtain ⟨hlt, hframe, -⟩ := U.registers
  refine U.reached_suspended.fds_kept hlt ?_ (U.wait.mono fun _ _ _ => trivial) fr hfr
  intro fr' hfr'
  rw [← Option.some_inj.mp (hframe.symm.trans hfr')]
  exact U.fds_eq

theorem undisturbed : Undisturbed U.suspended U.called.nextFrame fds U.waiting := by
  obtain ⟨hlt, hframe, -⟩ := U.registers
  refine U.reached_suspended.undisturbed hlt ?_ ?_ U.wait
  · intro g gr fd hg hgr hw
    have htr := U.reached.inv.step_transition U.poll
    rcases htr.frame_cases U.reached.inv hgr with ⟨gr', hgr', hfds⟩ | ⟨hnew, -⟩
    · exact U.alone g gr' fd hgr' (hfds ▸ hw)
    · exact absurd hnew hg
  · intro fd r hf hr
    obtain ⟨fr, hfr, hw⟩ := U.reached_suspended.inv.watched_of_registered hr
    rw [hf, hframe, Option.some.injEq] at hfr
    have hfds : fr.fds = fds := by
      rw [← hfr]
      exact U.fds_eq
    rwa [hfds] at hw

/-- The call returns what the events of the batch have written. -/
theorem revents_eq : revents = writeAll (fds.map fun _ => 0)
    (raised U.waiting.epollSet U.events U.called.nextFrame) := by
  have hinv := U.reached_waiting.inv
  obtain ⟨hprepared, hpc, hset⟩ := hinv.step_iterate U.iterate
  obtain ⟨fr, -, -, hfr, -⟩ := hinv.suspended_of_target hset U.event
  obtain ⟨fr', hfr', -⟩ := hinv.iterate_frame hpc hset U.now hfr
  obtain ⟨-, hrevents, -⟩ := hinv.iterate_answer U.reached_waiting.blank hpc hset hfr hfr'
  have hinv' : Inv U.size.toNat U.prepared := (hinv.step_transition U.iterate).inv hinv
  have hactive : U.called.nextFrame ∈ U.prepared.lists.seq .active := by
    rw [hinv'.frames.linked.mem_iff, hprepared]
    exact hinv.iterate_target hpc hset U.now U.event
  have ht := U.reached.inv.discipline.mem_main U.task (List.mem_of_getLast? U.curr)
  obtain ⟨gr, os, hgr, -, -, htrace⟩ :=
    U.reached_returning.inv.answers ht U.sleeps U.wake U.awake
  have hanswer := U.answer
  rw [htrace, ← List.append_assoc, List.getLast?_concat, Option.some.injEq,
    Obs.polled.injEq] at hanswer
  have hsame := hinv'.frame_kept hactive (by rw [hprepared]; exact hfr') U.drain hgr
  calc
    revents = gr.revents := hanswer.2.2.2.symm
    _ = fr'.revents := by rw [hsame]
    _ = _ := hrevents
    _ = _ := by rw [U.fds_waiting hfr]

/-- The events of the batch for the call are for distinct entries. -/
theorem nodup_raised :
    ((raised U.waiting.epollSet U.events U.called.nextFrame).map Prod.fst).Nodup :=
  U.reached_waiting.inv.nodup_raised U.reports.nodup _

/-- What is registered for the call was registered when it was made. -/
theorem enters_of_registered {fd : Fd} {r : Registration} (hr : U.waiting.epollSet fd = some r)
    (hframe : r.frame = U.called.nextFrame) :
    ∃ p, Enters addErr 0 fds r.item p ∧ r.events = pollEventToEpoll p.events := by
  obtain ⟨-, -, hregister, -⟩ := U.registers
  have hown := U.undisturbed.own fd r hframe hr
  rw [hregister] at hown
  rcases addEpoll_own hown with hold | ⟨-, k, p, hp, -, rfl⟩
  · obtain ⟨fr, hfr, -⟩ := U.reached.inv.watched_of_registered hold
    rw [hframe, U.reached.inv.frames.fresh _ (Nat.le_refl _)] at hfr
    simp at hfr
  · rw [U.fds_eq, U.addErr_eq] at hp
    rw [Nat.zero_add]
    exact ⟨p, hp, rfl⟩

/-- An entry that is answered was registered, and is answered by what can be reported
for it. -/
theorem enters_of_answered {i : Nat} {m : BitVec 16} (hi : revents[i]? = some m) (hm : m ≠ 0) :
    ∃ p, Enters addErr 0 fds i p ∧ m &&& p.reportable = m := by
  rw [U.revents_eq] at hi
  have hlength := (List.getElem?_eq_some_iff.mp hi).1
  rw [length_writeAll] at hlength
  have hmem : (i, m) ∈ raised U.waiting.epollSet U.events U.called.nextFrame := by
    by_cases hin : i ∈ (raised U.waiting.epollSet U.events U.called.nextFrame).map Prod.fst
    · obtain ⟨⟨j, m'⟩, hm', rfl⟩ := List.mem_map.mp hin
      rw [getElem?_writeAll_of_mem U.nodup_raised hm' hlength, Option.some.injEq] at hi
      rwa [← hi]
    · rw [getElem?_writeAll_of_notMem hin, List.getElem?_map, Option.map_eq_some_iff] at hi
      obtain ⟨p, -, hzero⟩ := hi
      exact absurd hzero.symm hm
  obtain ⟨e, he, r, hr, hframe, rfl, rfl⟩ := mem_raised.mp hmem
  obtain ⟨p, hp, hevents⟩ := U.enters_of_registered hr hframe
  obtain ⟨-, r', hr', hmask⟩ := (U.reports.mem_iff e.1 e.2).mp he
  obtain rfl := Option.some_inj.mp (hr.symm.trans hr')
  have hinside : e.2 &&& (pollEventToEpoll p.events ||| epollErr ||| epollHup) = e.2 := by
    rw [← hevents, hmask, BitVec.and_assoc, BitVec.and_self]
  obtain ⟨z, hz, hreportable⟩ := PollFd.exists_of_reported hinside
  rw [hz, PollFd.epollEventToPoll_setWidth hreportable]
  exact ⟨p, hp, hreportable⟩

/-- An entry that was registered is answered when its descriptor is ready. -/
theorem answered_of_enters {i : Nat} {p : PollFd} (hp : Enters addErr 0 fds i p)
    (hready : ready p.fd &&& p.reportable ≠ 0) :
    revents[i]? = some (ready p.fd &&& p.reportable) := by
  obtain ⟨-, -, hregister, hstay⟩ := U.registers
  have hwatched : watched fds p.fd := ⟨hp.fd, p, List.mem_of_getElem? hp.entry, rfl⟩
  have hnone : U.called.epollSet p.fd = none := by
    by_contra hne
    obtain ⟨r, hr⟩ := Option.ne_none_iff_exists'.mp hne
    obtain ⟨fr, hfr, hw⟩ := U.reached.inv.watched_of_registered hr
    exact U.alone _ fr p.fd hfr hw hwatched
  have hinv := U.reached_waiting.inv
  obtain ⟨-, hpc, hset⟩ := hinv.step_iterate U.iterate
  obtain ⟨fr, -, -, hfr, -⟩ := hinv.suspended_of_target hset U.event
  obtain ⟨os, hos⟩ := U.reached_suspended.run_extends (U.wait.mono fun _ _ _ => trivial)
  have hkept : U.waiting.epollSet p.fd =
      some ⟨U.called.nextFrame, i, pollEventToEpoll p.events⟩ := by
    refine U.undisturbed.kept (by simp [hfr]) os hos p.fd _ rfl ?_ ?_
    · have hown : Enters U.call.addErr 0 U.call.fds i p := by
        rw [U.fds_eq, U.addErr_eq]
        exact hp
      rw [hregister, Sys.register, addEpoll_enters hown hnone hstay, Nat.zero_add]
    · intro hclosed
      rw [U.closed os p.fd hos hclosed] at hready
      simp at hready
  have hmask : (ready p.fd).setWidth 32 &&& (pollEventToEpoll p.events ||| epollErr |||
      epollHup) = (ready p.fd &&& p.reportable).setWidth 32 := by
    rw [PollFd.setWidth_reportable, BitVec.setWidth_and]
  have hinside : ready p.fd &&& p.reportable &&& p.reportable = ready p.fd &&& p.reportable := by
    rw [BitVec.and_assoc, BitVec.and_self]
  have hevent : (p.fd, (ready p.fd &&& p.reportable).setWidth 32) ∈ U.events := by
    rw [U.reports.mem_iff]
    refine ⟨?_, _, hkept, hmask.symm⟩
    intro hzero
    apply hready
    rw [← PollFd.epollEventToPoll_setWidth hinside, hzero]
    decide
  rw [U.revents_eq]
  refine getElem?_writeAll_of_mem U.nodup_raised (mem_raised.mpr
    ⟨_, hevent, _, hkept, rfl, rfl, ?_⟩) ?_
  · exact (PollFd.epollEventToPoll_setWidth hinside).symm
  · rw [List.length_map]
    exact (List.getElem?_eq_some_iff.mp hp.entry).1

end EventWakeUp

/-- The descriptors of a list are ready for everything, all others for nothing. -/
def readyOn (ds : List Fd) (fd : Fd) : BitVec 16 := if fd ∈ ds then BitVec.allOnes 16 else 0

/-- What `epoll_wait` then reports. -/
def Sys.reportOn (s : Sys) (ds : List Fd) : Events :=
  ds.filterMap fun fd => (s.epollSet fd).map fun r =>
    (fd, (readyOn ds fd).setWidth 32 &&& (r.events ||| epollErr ||| epollHup))

theorem Sys.isSome_of_mem_reportOn (s : Sys) {ds : List Fd} :
    ∀ e ∈ s.reportOn ds, (s.epollSet e.1).isSome := by
  intro e he
  obtain ⟨fd, -, hmap⟩ := List.mem_filterMap.mp he
  obtain ⟨r, hr, rfl⟩ := Option.map_eq_some_iff.mp hmap
  rw [hr]
  rfl

theorem Sys.mem_reportOn {s : Sys} {ds : List Fd} {fd : Fd} {r : Registration} (hfd : fd ∈ ds)
    (hr : s.epollSet fd = some r) :
    (fd, (readyOn ds fd).setWidth 32 &&& (r.events ||| epollErr ||| epollHup)) ∈
      s.reportOn ds :=
  List.mem_filterMap.mpr ⟨fd, hfd, by rw [hr]; rfl⟩

theorem Sys.reportsReady_reportOn (s : Sys) {ds : List Fd} (hnodup : ds.Nodup)
    (hroom : ds.length ≤ kEpollSize) : s.ReportsReady (readyOn ds) (s.reportOn ds) where
  nodup := by
    rw [Sys.reportOn, List.map_filterMap]
    refine hnodup.filterMap ?_
    intro fd fd' d hd hd'
    simp only [Option.mem_def, Option.map_map, Option.map_eq_some_iff, Function.comp] at hd hd'
    obtain ⟨-, -, rfl⟩ := hd
    obtain ⟨-, -, rfl⟩ := hd'
    rfl
  mem_iff := by
    intro fd m
    simp only [Sys.reportOn, List.mem_filterMap, Option.map_eq_some_iff, Prod.mk.injEq]
    constructor
    · rintro ⟨fd', hfd', r, hr, rfl, rfl⟩
      refine ⟨?_, r, hr, rfl⟩
      -- Errors are always reported.
      apply ne_zero_of_getLsbD (i := 3)
      rw [readyOn, if_pos hfd', BitVec.getLsbD_and, BitVec.getLsbD_or, BitVec.getLsbD_or,
        show epollErr.getLsbD 3 = true by decide, Bool.or_true, Bool.true_or]
      decide
    · rintro ⟨hne, r, hr, rfl⟩
      refine ⟨fd, ?_, r, hr, rfl, rfl⟩
      by_contra hfd
      simp [readyOn, hfd] at hne
  room := Nat.le_trans (List.length_filterMap_le ..) hroom

/-- A thread whose task has just been called. -/
def spawnedSys : Sys := ((Sys.init 1000 1).newTask .main .main plainAttr).1

/-- A call for the array, with a timeout of zero. -/
def pollOnce (fds : List PollFd) (addErr : Nat → Option Errno) : PollCall where
  fds := fds
  timeout := 0
  pollfunc := false
  addErr := addErr
  delErr := fun _ => Errno.enoent
  tick := 1000
  native := 0
  nativeRevents := []

section Exists

variable (fds : List PollFd) (addErr : Nat → Option Errno)

theorem reached_spawnedSys : Sys.Reached always 1000 1 spawnedSys :=
  (Reaches.refl _).snoc (a := Act.newTask plainAttr) trivial rfl

/-- The call is suspended whatever its array is. -/
theorem step_pollOnce : spawnedSys.step (.poll (pollOnce fds addErr)) =
    some (spawnedSys.suspended .main .fn 0 (pollOnce fds addErr)) := by
  have hstep : spawnedSys.step (.poll (pollOnce fds addErr)) =
      some (spawnedSys.pollInner (.worker 0) .fn 0 (pollOnce fds addErr)) := rfl
  have hstart : (spawnedSys.wheel.restart (pollOnce fds addErr).tick).start = 1000 := rfl
  have hexpire : spawnedSys.expireAt 0 (pollOnce fds addErr) = 1000 := by
    have hclamp : spawnedSys.expireAt 0 (pollOnce fds addErr) =
        toUInt64 ((1000 : Nat) + clampTimeout 0) := rfl
    rw [hclamp]
    decide
  have hdistance : spawnedSys.distanceAt 0 (pollOnce fds addErr) = 0 := by
    rw [Sys.distanceAt, hexpire, hstart]
    decide
  have haccepts : spawnedSys.accepts 0 (pollOnce fds addErr) := by
    refine ⟨Nat.le_of_eq hstart, Nat.le_of_eq hexpire.symm, ?_⟩
    rw [hdistance, reached_spawnedSys.wheel_size]
    decide
  have hlast : spawnedSys.callstack.dropLast.getLast? = some .main := rfl
  rw [hstep, reached_spawnedSys.inv.pollInner_suspend (by simp) hlast rfl
    (addEpoll_stays (by simp [pollOnce]) ..) haccepts]

/-- The thread in its event loop, with the call suspended. -/
def pollingSys : Sys :=
  (spawnedSys.suspended .main .fn 0 (pollOnce fds addErr)).enterEventloop 1000

theorem step_eventloop : (spawnedSys.suspended .main .fn 0 (pollOnce fds addErr)).step
    (.eventloop 1000) = some (pollingSys fds addErr) := rfl

theorem reached_pollingSys : Sys.Reached always 1000 1 (pollingSys fds addErr) :=
  (reached_spawnedSys.snoc trivial (step_pollOnce fds addErr)).snoc trivial
    (step_eventloop fds addErr)

/-- The call of the thread is the only one. -/
theorem pollingSys_frame {f : FrameId} {fr : PollFrame}
    (hfr : (pollingSys fds addErr).frames f = some fr) : f = 0 := by
  by_contra hf
  have hnone : (pollingSys fds addErr).frames f = none := Function.update_of_ne hf ..
  rw [hnone] at hfr
  simp at hfr

variable {fds addErr}

theorem pollingSys_registers {k : Nat} {p : PollFd} (hk : Enters addErr 0 fds k p) :
    (pollingSys fds addErr).epollSet p.fd = some ⟨0, k, pollEventToEpoll p.events⟩ := by
  have hset : (pollingSys fds addErr).epollSet =
      (addEpoll (pollOnce fds addErr) 0 0 fds fun _ => none).1 := rfl
  rw [hset, @addEpoll_enters (pollOnce fds addErr) 0 fds 0 k _ p hk rfl
    (addEpoll_stays (by simp [pollOnce]) ..), Nat.zero_add]

theorem pollingSys_target {k : Nat} {p : PollFd} (hk : Enters addErr 0 fds k p) {ds : List Fd}
    (hmem : p.fd ∈ ds) :
    0 ∈ targets (pollingSys fds addErr).epollSet ((pollingSys fds addErr).reportOn ds) := by
  have hregistered := pollingSys_registers hk
  have hreport := Sys.mem_reportOn hmem hregistered
  refine List.mem_filterMap.mpr ⟨_, hreport, ?_⟩
  dsimp only
  rw [hregistered]
  rfl

variable (fds addErr) in
/-- The thread after its event loop has prepared what is ready. -/
def preparedSys (ds : List Fd) : Sys :=
  (pollingSys fds addErr).iterate ((pollingSys fds addErr).reportOn ds) 1000

theorem step_preparedSys (ds : List Fd) : (pollingSys fds addErr).step
    (.iterate ((pollingSys fds addErr).reportOn ds) 1000) = some (preparedSys fds addErr ds) := by
  have hcurr : (pollingSys fds addErr).curr = some .main := rfl
  have hpc : (pollingSys fds addErr).pc .main = .loopHead := rfl
  simp only [Sys.step, hcurr, hpc]
  exact if_pos ((pollingSys fds addErr).isSome_of_mem_reportOn)

/-- The only item on the active list is that of the call, which is resumed. -/
theorem preparedSys_wakes {k : Nat} {p : PollFd} (hk : Enters addErr 0 fds k p) {ds : List Fd}
    (hmem : p.fd ∈ ds) :
    (preparedSys fds addErr ds).pc (.worker 0) = .polling .fn 0 ∧
      ∃ fr, (preparedSys fds addErr ds).step .drain =
        some ((preparedSys fds addErr ds).woken 0 fr 0 .fn) := by
  have hinv := (reached_pollingSys fds addErr).inv
  have hinv' := (hinv.step_transition (step_preparedSys ds)).inv hinv
  have hpc : (pollingSys fds addErr).pc .main = .loopHead := rfl
  have hset : ∀ e ∈ (pollingSys fds addErr).reportOn ds,
      ((pollingSys fds addErr).epollSet e.1).isSome := Sys.isSome_of_mem_reportOn _
  have hrest := hinv.iterate_rest hpc hset 1000
  have hcurr' : (preparedSys fds addErr ds).curr = some .main := by
    rw [preparedSys, hrest]
    rfl
  have hpc' : (preparedSys fds addErr ds).pc .main = .draining := by
    rw [preparedSys, hrest]
    rfl
  have hsleeps : (preparedSys fds addErr ds).pc (.worker 0) = .polling .fn 0 := by
    rw [preparedSys, hrest]
    rfl
  refine ⟨hsleeps, ?_⟩
  have hactive : 0 ∈ (preparedSys fds addErr ds).lists.seq .active :=
    (hinv'.frames.linked.mem_iff _ _).mpr
      (hinv.iterate_target hpc hset 1000 (pollingSys_target hk hmem))
  obtain ⟨g, rest, hhead⟩ := List.exists_cons_of_ne_nil (List.ne_nil_of_mem hactive)
  obtain ⟨fr, t, ph, hfr, ht, hco, hpoll⟩ := hinv'.active_head hhead
  obtain rfl : g = 0 := by
    obtain ⟨fr₀, hfr₀, -⟩ := hinv.iterate_origin hpc hset 1000 hfr
    exact pollingSys_frame fds addErr hfr₀
  obtain rfl : t = 0 := Nat.lt_one_iff.mp ht
  obtain ⟨rfl, -⟩ := Pc.polling.inj (hsleeps.symm.trans hpoll)
  refine ⟨fr, ?_⟩
  simp only [Sys.step, hcurr', hpc', hinv'.drain_wake hhead hfr ht hco hpoll]

/-- A call of which some entry is registered can be woken by an event. -/
theorem exists_eventWakeUp {k : Nat} {p : PollFd} (hk : Enters addErr 0 fds k p)
    {ds : List Fd} (hnodup : ds.Nodup) (hroom : ds.length ≤ kEpollSize) (hmem : p.fd ∈ ds) :
    ∃ revents, Nonempty (EventWakeUp fds addErr (readyOn ds) revents) := by
  obtain ⟨hsleeps, fr, hdrain⟩ := preparedSys_wakes hk hmem
  exact ⟨fr.revents, ⟨{
    tick := 1000
    size := 1
    task := 0
    phase := .fn
    call := pollOnce fds addErr
    fds_eq := rfl
    addErr_eq := rfl
    called := spawnedSys
    reached := reached_spawnedSys
    curr := rfl
    alone := fun f fr fd hfr => absurd (show none = some fr from hfr) (by simp)
    suspended := spawnedSys.suspended .main .fn 0 (pollOnce fds addErr)
    poll := step_pollOnce fds addErr
    suspends := rfl
    waiting := pollingSys fds addErr
    wait := (Reaches.refl _).snoc (a := Act.eventloop 1000) trivial (step_eventloop fds addErr)
    closed := by
      intro os fd hos hclosed
      have htrace : (pollingSys fds addErr).trace = (spawnedSys.suspended .main .fn 0
        (pollOnce fds addErr)).trace ++ [.clock 1000] := rfl
      rw [← List.append_cancel_left (htrace.symm.trans hos)] at hclosed
      simp at hclosed
    events := (pollingSys fds addErr).reportOn ds
    reports := (pollingSys fds addErr).reportsReady_reportOn hnodup hroom
    now := 1000
    prepared := preparedSys fds addErr ds
    iterate := step_preparedSys ds
    event := pollingSys_target hk hmem
    returning := preparedSys fds addErr ds
    drain := Reaches.refl _
    sleeps := hsleeps
    act := .drain
    returned := _
    wake := hdrain
    awake := by
      rw [Sys.pc_woken, Function.update_self]
      simp
    ret := fr.raiseCnt
    answer := by
      rw [Sys.woken]
      simp only [← List.append_assoc, List.getLast?_concat] }⟩⟩

end Exists

/-- Every entry whose descriptor is ready is answered as by the native `poll`, whenever an
event wakes the call and nobody else polls the descriptors, exactly when all entries with a
descriptor are registered as soon as one is, and ask for events that the library knows. In
particular a descriptor must not be repeated. -/
theorem repeated_answered_iff (fds : List PollFd) (addErr : Nat → Option Errno) :
    (∀ ready revents, EventWakeUp fds addErr ready revents →
        ∀ (i : Nat) (p : PollFd), fds[i]? = some p → p.native ready ≠ 0 →
          revents[i]? = some (p.native ready)) ↔
      ((∃ k p, Enters addErr 0 fds k p) →
        ∀ (i : Nat) (p : PollFd), fds[i]? = some p → -1 < p.fd →
          Enters addErr 0 fds i p ∧ p.events &&& knownEvents = p.events) := by
  constructor
  · rintro hlaw ⟨k, q, hk⟩ i p hp hfd
    -- The descriptor of the entry is ready for everything, and the other one wakes the call.
    have hroom : [p.fd, q.fd].dedup.length ≤ kEpollSize :=
      Nat.le_trans (List.dedup_sublist _).length_le (show 2 ≤ kEpollSize by decide)
    obtain ⟨revents, ⟨U⟩⟩ :=
      exists_eventWakeUp hk (List.nodup_dedup [p.fd, q.fd]) hroom (by simp)
    have hnative : p.native (readyOn [p.fd, q.fd].dedup) = p.events ||| pollErr ||| pollHup := by
      rw [PollFd.native, if_pos hfd, readyOn, if_pos (by simp), BitVec.allOnes_and]
    have hne : p.events ||| pollErr ||| pollHup ≠ 0 := by
      apply ne_zero_of_getLsbD (i := 3)
      rw [BitVec.getLsbD_or, BitVec.getLsbD_or, show pollErr.getLsbD 3 = true by decide,
        Bool.or_true, Bool.true_or]
    have hanswer := hlaw _ revents U i p hp (by rwa [hnative])
    rw [hnative] at hanswer
    obtain ⟨p', hp', hinside⟩ := U.enters_of_answered hanswer hne
    obtain rfl : p = p' := Option.some_inj.mp (hp.symm.trans hp'.entry)
    refine ⟨hp', ?_⟩
    have hknown := and_eq_left_trans hinside p.reportable_known
    have hasked : p.events &&& (p.events ||| pollErr ||| pollHup) = p.events := by
      apply BitVec.eq_of_getLsbD_eq
      intro j _
      simp only [BitVec.getLsbD_and, BitVec.getLsbD_or]
      cases p.events.getLsbD j <;> rfl
    exact and_eq_left_trans hasked hknown
  · intro hcond ready revents U i p hp hne
    have hfd : -1 < p.fd := by
      by_contra hneg
      exact hne (if_neg hneg)
    have hsome : ∃ k q, Enters addErr 0 fds k q := by
      obtain ⟨e, -, hmap⟩ := List.mem_filterMap.mp U.event
      obtain ⟨r, hr, hframe⟩ := Option.map_eq_some_iff.mp hmap
      obtain ⟨q, hq, -⟩ := U.enters_of_registered hr hframe
      exact ⟨r.item, q, hq⟩
    obtain ⟨henters, hknown⟩ := hcond hsome i p hp hfd
    have hnative : p.native ready = ready p.fd &&& p.reportable := by
      rw [PollFd.native, if_pos hfd, p.reportable_of_known hknown]
    rw [hnative] at hne ⊢
    exact U.answered_of_enters henters hne

/-- A call for input and output on the descriptor 5, as two entries. The kernel has it ready
for both and reports what is registered, which is the input. The first entry is answered,
the second one is not. -/
theorem repeated_unanswered :
    ∃ s s', exec Sys.step (Sys.init 1000 1) [.newTask plainAttr,
        .poll (pollOnce [⟨5, pollIn⟩, ⟨5, pollOut⟩] fun _ => none), .eventloop 1000] = some s ∧
      s.ReportsReady (fun fd => if fd = 5 then pollIn ||| pollOut else 0) [(5, epollIn)] ∧
      exec Sys.step s [.iterate [(5, epollIn)] 1000, .drain] = some s' ∧
      s'.trace.getLast? = some (.polled (.worker 0) 1 none [pollIn, 0]) ∧
      PollFd.native (fun fd => if fd = 5 then pollIn ||| pollOut else 0) ⟨5, pollOut⟩ =
        pollOut := by
  have hset : (pollingSys [⟨5, pollIn⟩, ⟨5, pollOut⟩] fun _ => none).epollSet =
      Function.update (fun _ => none) 5 (some ⟨0, 0, 1⟩) := rfl
  obtain ⟨s', hs', hlast⟩ := Option.map_eq_some_iff.mp (show
    (exec Sys.step (pollingSys [⟨5, pollIn⟩, ⟨5, pollOut⟩] fun _ => none)
      [.iterate [(5, epollIn)] 1000, .drain]).map (fun s => s.trace.getLast?) =
        some (some (.polled (.worker 0) 1 none [pollIn, 0])) by decide +kernel)
  refine ⟨pollingSys [⟨5, pollIn⟩, ⟨5, pollOut⟩] fun _ => none, s', ?_, ⟨?_, ?_, ?_⟩, hs', hlast,
    by decide⟩
  · rfl
  · exact List.nodup_singleton _
  · intro fd m
    rw [hset]
    by_cases hfd : fd = 5
    · subst hfd
      simp only [List.mem_singleton, Prod.mk.injEq, true_and, Function.update_self,
        Option.some_inj, exists_eq_left', if_pos]
      constructor
      · rintro rfl
        exact ⟨by decide, by decide⟩
      · rintro ⟨-, rfl⟩
        decide
    · simp [hfd]
  · decide

end Libcr
