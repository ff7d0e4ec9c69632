import Libcr.Scheduler.State

/-!
# The parts of `poll_inner`

The deadline arithmetic of `fix_coroutine_timeout`, the translation of event
masks, the two loops over the caller's array that register and unregister
descriptors, and the code after `yield_env` has returned.

The epoll set is a map from descriptors to registrations. An `EPOLL_CTL_ADD` on
a descriptor that is present fails with `EEXIST`; on one that is absent the
kernel may succeed or fail with an error of its own. `EPOLL_CTL_DEL` removes
whatever is present and fails where nothing is, with `ENOENT` for an open
descriptor and with an error of its own otherwise.
-/

namespace Libcr

def pollIn : BitVec 16 := 0x1
def pollOut : BitVec 16 := 0x4
def pollErr : BitVec 16 := 0x8
def pollHup : BitVec 16 := 0x10

def epollIn : BitVec 32 := 0x1
def epollOut : BitVec 32 := 0x4
def epollErr : BitVec 32 := 0x8
def epollHup : BitVec 32 := 0x10

/-- `poll_event_to_epoll`. -/
def pollEventToEpoll (events : BitVec 16) : BitVec 32 :=
  let e := 0
  let e := if events &&& pollIn ≠ 0 then e ||| epollIn else e
  let e := if events &&& pollOut ≠ 0 then e ||| epollOut else e
  let e := if events &&& pollHup ≠ 0 then e ||| epollHup else e
  let e := if events &&& pollErr ≠ 0 then e ||| epollErr else e
  let e := if events &&& pollIn ≠ 0 then e ||| epollIn else e
  if events &&& pollOut ≠ 0 then e ||| epollOut else e

/-- `epoll_event_to_poll`. -/
def epollEventToPoll (events : BitVec 32) : BitVec 16 :=
  let e := 0
  let e := if events &&& epollIn ≠ 0 then e ||| pollIn else e
  let e := if events &&& epollOut ≠ 0 then e ||| pollOut else e
  let e := if events &&& epollHup ≠ 0 then e ||| pollHup else e
  let e := if events &&& epollErr ≠ 0 then e ||| pollErr else e
  let e := if events &&& epollIn ≠ 0 then e ||| pollIn else e
  if events &&& epollOut ≠ 0 then e ||| pollOut else e

/-- The clamp that stands in `fix_coroutine_timeout` and again in `poll_inner`. -/
def clampTimeout (timeout : Int) : Int :=
  if timeout = -1 ∨ timeout > kMaxTimeoutMs then kMaxTimeoutMs else timeout

theorem clampTimeout_le (timeout : Int) : clampTimeout timeout ≤ kMaxTimeoutMs := by
  unfold clampTimeout
  split <;> omega

/-- `fix_coroutine_timeout` on the task of the calling coroutine at the cached
time `now`: the task afterwards, the returned timeout, and `istimeout`. -/
def fixCoroutineTimeout (task : Task) (now : Nat) (timeout : Int) : Task × Int × Bool :=
  if task.attr.maxTimeoutMs = -1 then (task, clampTimeout timeout, false)
  else if task.timeout then (task, 0, true)
  else
    let diff := toInt32 ((now : Int) - task.last)
    let task := { task with leftmsec := toInt32 (task.leftmsec - diff), last := now }
    if task.leftmsec ≤ 0 then ({ task with timeout := true }, 0, true)
    else
      let timeout :=
        if timeout = -1 then task.leftmsec
        else if timeout > task.leftmsec then task.leftmsec else timeout
      (task, clampTimeout timeout, false)

/-- `fix_coroutine_timeout` writes the three fields of the deadline only. -/
theorem fixCoroutineTimeout_task (task : Task) (now : Nat) (timeout : Int) :
    ∃ timeout' leftmsec' last', (fixCoroutineTimeout task now timeout).1 =
      { task with timeout := timeout', leftmsec := leftmsec', last := last' } := by
  unfold fixCoroutineTimeout
  split
  · exact ⟨_, _, _, rfl⟩
  · split
    · exact ⟨_, _, _, rfl⟩
    · dsimp only
      split <;> exact ⟨_, _, _, rfl⟩

/-- `fix_coroutine_timeout` keeps the attributes, and sets the flag of the task when
it answers that the deadline has expired. -/
theorem fixCoroutineTimeout_flag (task : Task) (now : Nat) (timeout : Int) :
    (fixCoroutineTimeout task now timeout).1.attr = task.attr ∧
      ((fixCoroutineTimeout task now timeout).1.timeout = true ↔
        task.timeout = true ∨ (fixCoroutineTimeout task now timeout).2.2 = true) := by
  unfold fixCoroutineTimeout
  split
  · simp
  · split
    · next hflag => simp [hflag]
    · next hflag =>
        dsimp only
        split
        · simp
        · simp [hflag]

/-- `fix_coroutine_timeout` moves the last refresh to the cached time, if at all. -/
theorem fixCoroutineTimeout_last (task : Task) (now : Nat) (timeout : Int) :
    (fixCoroutineTimeout task now timeout).1.last = task.last ∨
      (fixCoroutineTimeout task now timeout).1.last = now := by
  unfold fixCoroutineTimeout
  split
  · exact Or.inl rfl
  · split
    · exact Or.inl rfl
    · dsimp only
      split <;> exact Or.inr rfl

/-- The arguments of a `poll_inner` call, with what the outside world answers
during it: the errors of an `EPOLL_CTL_ADD` and of an `EPOLL_CTL_DEL` on an
absent descriptor, for each position of the array, the reading of `GetTickMS`,
and the result of the native `poll`. `pollfunc` says whether the function pointer
is set. -/
structure PollCall where
  fds : List PollFd
  timeout : Int
  pollfunc : Bool
  addErr : Nat → Option Errno
  delErr : Nat → Errno
  tick : Nat
  native : Int
  nativeRevents : List (BitVec 16)

/-- `EPOLL_CTL_ADD`: the set afterwards and the error. -/
def ctlAdd (set : Fd → Option Registration) (fd : Fd) (r : Registration)
    (err : Option Errno) : (Fd → Option Registration) × Option Errno :=
  match set fd, err with
  | some _, _ => (set, some Errno.eexist)
  | none, some e => (set, some e)
  | none, none => (Function.update set fd (some r), none)

/-- The loop "add epoll" from position `i` on: the set afterwards, what was
registered, and whether the loop was left for the native `poll`. -/
def addEpoll (call : PollCall) (f : FrameId) :
    Nat → List PollFd → (Fd → Option Registration) →
      (Fd → Option Registration) × List Obs × Bool
  | _, [], set => (set, [], false)
  | i, p :: rest, set =>
      if p.fd > -1 then
        match ctlAdd set p.fd ⟨f, i, pollEventToEpoll p.events⟩ (call.addErr i) with
        | (set, none) =>
            let r := addEpoll call f (i + 1) rest set
            (r.1, .added f i p.fd :: r.2.1, r.2.2)
        | (set, some e) =>
            if e = Errno.eperm ∧ call.fds.length = 1 ∧ call.pollfunc then (set, [], true)
            else addEpoll call f (i + 1) rest set
      else addEpoll call f (i + 1) rest set

/-- `EPOLL_CTL_DEL` for every descriptor of the array: the set afterwards and
what was removed. -/
def delEpoll (f : FrameId) :
    List PollFd → (Fd → Option Registration) → (Fd → Option Registration) × List Obs
  | [], set => (set, [])
  | p :: rest, set =>
      if p.fd > -1 then
        match set p.fd with
        | none => delEpoll f rest set
        | some r =>
            let d := delEpoll f rest (Function.update set p.fd none)
            (d.1, .removed f p.fd r :: d.2)
      else delEpoll f rest set

/-- `errno` after that loop from position `i` on, when it was `e` before: every
`EPOLL_CTL_DEL` that fails overwrites it. -/
def delErrno (call : PollCall) :
    Nat → List PollFd → (Fd → Option Registration) → Errno → Errno
  | _, [], _, e => e
  | i, p :: rest, set, e =>
      if p.fd > -1 then
        match set p.fd with
        | none => delErrno call (i + 1) rest set (call.delErr i)
        | some _ => delErrno call (i + 1) rest (Function.update set p.fd none) e
      else delErrno call (i + 1) rest set e

namespace Sys

/-- `poll_inner` after `yield_env` has returned: the timer item is unlinked, the
descriptors are unregistered, and the call returns to user code. -/
def pollReturn (s : Sys) (c : CoId) (ph : Phase) (f : FrameId) : Sys :=
  match s.frames f with
  | none => s.emit [.dangling f]
  | some fr =>
      let d := delEpoll f fr.fds s.epollSet
      let s := { s with
        lists := TimerLists.removeFromLink s.lists f
        epollSet := d.1 }
      ((s.setFrame f none).setPc c (.user ph)).emit
        (d.2 ++ [Obs.polled c fr.raiseCnt none fr.revents])

end Sys

end Libcr
