import Libcr.Scheduler.Task

/-!
# `poll_inner` and the event loop

`poll_inner` of `coroutine_impl.c` as a whole, `prepare_poll_event` and
`process_poll_event`, and one iteration of `coroutine_eventloop` of `epoll.c`,
cut at the points where other coroutines run.

Every pointer in the epoll set is to a poll item, whose `prepare` is set, and
every item in a list is the timer item of a `poll_inner` call, whose `process`
is set; the branches for null function pointers have no instance here.
-/

namespace Libcr

namespace Sys

/-- `poll_inner` once every descriptor has been registered: the timer is armed
and the coroutine yields, or the call fails. It then sets `errno` to `EINVAL`, before
it takes the descriptors out again. -/
def pollArm (s : Sys) (c : CoId) (ph : Phase) (f : FrameId) (call : PollCall)
    (timeout : Int) : Sys :=
  let expire := toUInt64 ((call.tick : Int) + timeout)
  let r := addTimeout s.wheel s.lists f expire call.tick
  let s := { s with wheel := r.2.1, lists := r.2.2 }.emit [.clock call.tick]
  if r.1 ≠ 0 then
    let d := delEpoll f call.fds s.epollSet
    let errno := delErrno call 0 call.fds s.epollSet Errno.einval
    { s with epollSet := d.1 }.emit (d.2 ++ [Obs.polled c (-1) (some errno) []])
  else
    let fr : PollFrame :=
      { coroutine := c
        fds := call.fds
        revents := call.fds.map fun _ => 0
        allEventDetatch := false
        raiseCnt := 0
        expire := expire
        timeout := false }
    (((s.setFrame f (some fr)).emit [.suspended f]).setPc c (.polling ph f)).yieldEnv

/-- `poll_inner`, called by `c` with the task `t` from user code of phase `ph`. -/
def pollInner (s : Sys) (c : CoId) (ph : Phase) (t : TaskId) (call : PollCall) : Sys :=
  let s := s.emit [.index ((s.callstack.length : Int) - 1)]
  let r := fixCoroutineTimeout (s.tasks t) s.now call.timeout
  let s := (s.emit [.fixed t s.now (s.tasks t) r.1 r.2.2]).setTask t r.1
  if r.2.2 then s.emit [.polled c (-1) none []]
  else
    let f := s.nextFrame
    let a := addEpoll call f 0 call.fds s.epollSet
    let s := { s with nextFrame := f + 1, epollSet := a.1 }.emit a.2.1
    if a.2.2 then s.emit [.polled c call.native none call.nativeRevents]
    else s.pollArm c ph f call (clampTimeout r.2.1)

/-- `prepare_poll_event` for an event on the registration `r`. -/
def preparePollEvent (s : Sys) (r : Registration) (events : BitVec 32) : Sys :=
  match s.frames r.frame with
  | none => s.emit [.dangling r.frame]
  | some fr =>
      let fr := { fr with
        revents := fr.revents.set r.item (epollEventToPoll events)
        raiseCnt := fr.raiseCnt + 1 }
      let s := s.emit [.delivered r.frame]
      if fr.allEventDetatch then s.setFrame r.frame (some fr)
      else
        let s := s.setFrame r.frame (some { fr with allEventDetatch := true })
        let L := TimerLists.removeFromLink s.lists r.frame
        { s with lists := TimerLists.addTail L .active r.frame }.emit
          [.activated r.frame]

/-- The events `epoll_wait` returned: for each, the descriptor it is for and the
mask. The kernel hands back the pointer stored with the descriptor. -/
abbrev Events := List (Fd × BitVec 32)

/-- The loop over the result of `epoll_wait`. -/
def prepareAll (s : Sys) (events : Events) : Sys :=
  events.foldl (fun s e =>
    match s.epollSet e.1 with
    | none => s
    | some r => s.preparePollEvent r e.2) s

/-- The loop that sets `item->timeout` along the timeout list. -/
def markTimeout (s : Sys) : Sys :=
  { s with frames := fun f =>
      if f ∈ s.lists.seq .timeout then
        (s.frames f).map fun fr => { fr with timeout := true }
      else s.frames f }

/-- `coroutine_eventloop` from the head of its loop to the head of the loop that
empties the active list. -/
def iterate (s : Sys) (events : Events) (tick : Nat) : Sys :=
  let s := s.emit [.epollWait]
  let s := { s with lists := TimerLists.memset s.lists .timeout }.prepareAll events
  let s := { s with now := tick }.emit [.clock tick]
  let r := takeAllTimeout s.wheel s.lists tick .timeout
  let s := { s with wheel := r.1, lists := r.2 }.markTimeout
  let s := s.emit ((s.lists.seq .timeout).map .activated)
  { s with lists := TimerLists.join s.lists .active .timeout }.setPc .main .draining

/-- One turn of the loop that empties the active list: the first item is popped
and processed, which resumes its coroutine. -/
def drain (s : Sys) : Sys :=
  match s.lists.seq .active with
  | [] => s.setPc .main .loopHead
  | f :: _ =>
      let s := { s with lists := TimerLists.popHead s.lists .active }
      match s.frames f with
      | none => s.emit [.dangling f]
      | some fr => (s.emit [.processed f]).coroutineResume fr.coroutine

/-- The entry of `coroutine_eventloop`. -/
def enterEventloop (s : Sys) (tick : Nat) : Sys :=
  { s with now := tick }.emit [.clock tick] |>.setPc .main .loopHead

end Sys

end Libcr
