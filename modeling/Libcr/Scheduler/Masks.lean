import Libcr.Scheduler.Poll

/-!
# Event masks

`poll_event_to_epoll` and `epoll_event_to_poll` copy the four flags they know and drop every
other one. What the kernel reports for an entry of an array, the events it asks for plus
errors and hang-ups, therefore comes back as it was reported, but for the events that were
dropped on the way in.
-/

namespace Libcr

/-- The events that the translations know. -/
def knownEvents : BitVec 16 := pollIn ||| pollOut ||| pollHup ||| pollErr

section Flags

variable {v w : Nat} (x : BitVec v)

variable {x} in
theorem ne_zero_of_getLsbD {i : Nat} (h : x.getLsbD i = true) : x ≠ 0 := by
  rintro rfl
  simp at h

/-- Copying one flag to a mask of another width. -/
theorem or_copied_flag (acc : BitVec w) {i : Nat} (hv : i < v) (hw : i < w) :
    (if x &&& BitVec.twoPow v i ≠ 0 then acc ||| BitVec.twoPow w i else acc) =
      acc ||| x.setWidth w &&& BitVec.twoPow w i := by
  have hset : BitVec.twoPow v i ≠ 0 := ne_zero_of_getLsbD (i := i) (by simp [hv])
  have hsame : (x.setWidth w).getLsbD i = x.getLsbD i := by
    rw [BitVec.getLsbD_setWidth, decide_eq_true hw, Bool.true_and]
  rw [BitVec.and_twoPow, BitVec.and_twoPow, hsame]
  by_cases hbit : x.getLsbD i = true
  · rw [if_pos hbit, if_pos hset, if_pos hbit]
  · rw [if_neg hbit, if_neg hbit]
    simp

/-- The six assignments that both translations consist of. -/
theorem copied_flags (hv : 4 < v) (hw : 4 < w) :
    (let e : BitVec w := 0
     let e := if x &&& BitVec.twoPow v 0 ≠ 0 then e ||| BitVec.twoPow w 0 else e
     let e := if x &&& BitVec.twoPow v 2 ≠ 0 then e ||| BitVec.twoPow w 2 else e
     let e := if x &&& BitVec.twoPow v 4 ≠ 0 then e ||| BitVec.twoPow w 4 else e
     let e := if x &&& BitVec.twoPow v 3 ≠ 0 then e ||| BitVec.twoPow w 3 else e
     let e := if x &&& BitVec.twoPow v 0 ≠ 0 then e ||| BitVec.twoPow w 0 else e
     if x &&& BitVec.twoPow v 2 ≠ 0 then e ||| BitVec.twoPow w 2 else e) =
      x.setWidth w &&& (BitVec.twoPow w 0 ||| BitVec.twoPow w 2 ||| BitVec.twoPow w 4 |||
        BitVec.twoPow w 3) := by
  have hcopy : ∀ (acc : BitVec w) (i : Nat), i < 5 →
      (if x &&& BitVec.twoPow v i ≠ 0 then acc ||| BitVec.twoPow w i else acc) =
        acc ||| x.setWidth w &&& BitVec.twoPow w i :=
    fun acc i hi => or_copied_flag x acc (by omega) (by omega)
  dsimp only
  rw [hcopy _ 0 (by decide), hcopy _ 2 (by decide), hcopy _ 4 (by decide), hcopy _ 3 (by decide),
    hcopy _ 0 (by decide), hcopy _ 2 (by decide)]
  simp only [BitVec.and_or_distrib_left]
  ac_rfl

end Flags

/-- A mask inside another one stays inside when that is inside a third one. -/
theorem and_eq_left_trans {n : Nat} {x y z : BitVec n} (hxy : x &&& y = x) (hyz : y &&& z = y) :
    x &&& z = x := by
  rw [← hxy, BitVec.and_assoc, hyz]

theorem pollEventToEpoll_eq (events : BitVec 16) :
    pollEventToEpoll events = (events &&& knownEvents).setWidth 32 := by
  rw [BitVec.setWidth_and]
  exact copied_flags events (by decide) (by decide)

theorem epollEventToPoll_eq (events : BitVec 32) :
    epollEventToPoll events = events.setWidth 16 &&& knownEvents :=
  copied_flags events (by decide) (by decide)

namespace PollFd

/-- The events that the kernel can report for an entry: those it registers, errors and
hang-ups. -/
def reportable (p : PollFd) : BitVec 16 := p.events &&& knownEvents ||| pollErr ||| pollHup

variable (p : PollFd)

/-- The mask that the kernel keeps events of an entry inside of. -/
theorem setWidth_reportable :
    pollEventToEpoll p.events ||| epollErr ||| epollHup = p.reportable.setWidth 32 := by
  rw [pollEventToEpoll_eq, reportable, BitVec.setWidth_or, BitVec.setWidth_or]
  rfl

/-- Every event that can be reported is known. -/
theorem reportable_known : p.reportable &&& knownEvents = p.reportable := by
  have herr : pollErr &&& knownEvents = pollErr := by decide
  have hhup : pollHup &&& knownEvents = pollHup := by decide
  rw [reportable, BitVec.and_or_distrib_right, BitVec.and_or_distrib_right, BitVec.and_assoc,
    BitVec.and_self, herr, hhup]

/-- An entry that asks for known events only can have all of them reported. -/
theorem reportable_of_known (h : p.events &&& knownEvents = p.events) :
    p.reportable = p.events ||| pollErr ||| pollHup := by
  rw [reportable, h]

/-- What is reported was asked for, or is an error or a hang-up. -/
theorem reportable_asked :
    p.reportable &&& (p.events ||| pollErr ||| pollHup) = p.reportable := by
  apply BitVec.eq_of_getLsbD_eq
  intro i _
  simp only [reportable, BitVec.getLsbD_and, BitVec.getLsbD_or]
  cases p.events.getLsbD i <;> cases knownEvents.getLsbD i <;> cases pollErr.getLsbD i <;>
    cases pollHup.getLsbD i <;> rfl

variable {p}

/-- A reported mask is translated to the events it stands for. -/
theorem epollEventToPoll_setWidth {z : BitVec 16} (hz : z &&& p.reportable = z) :
    epollEventToPoll (z.setWidth 32) = z := by
  rw [epollEventToPoll_eq, BitVec.setWidth_setWidth_of_le _ (by decide), BitVec.setWidth_eq]
  exact and_eq_left_trans hz p.reportable_known

/-- A mask that the kernel may report for an entry stands for some of its events. -/
theorem exists_of_reported {m : BitVec 32}
    (hm : m &&& (pollEventToEpoll p.events ||| epollErr ||| epollHup) = m) :
    ∃ z : BitVec 16, m = z.setWidth 32 ∧ z &&& p.reportable = z := by
  rw [setWidth_reportable] at hm
  refine ⟨m.setWidth 16 &&& p.reportable, ?_, by rw [BitVec.and_assoc, BitVec.and_self]⟩
  have hlow : ∀ i, (p.reportable.setWidth 32).getLsbD i = true → i < 16 := by
    intro i hi
    by_contra hge
    rw [BitVec.getLsbD_setWidth, BitVec.getLsbD_of_ge _ _ (Nat.le_of_not_lt hge)] at hi
    simp at hi
  apply BitVec.eq_of_getLsbD_eq
  intro i hi
  have hbit := congrArg (fun y => BitVec.getLsbD y i) hm
  have hlt := hlow i
  simp only [BitVec.getLsbD_and, BitVec.getLsbD_setWidth, hi, decide_true, Bool.true_and]
    at hbit hlt ⊢
  rw [← hbit]
  by_cases hr : p.reportable.getLsbD i = true
  · simp [hlt hr]
  · simp [hr]

end PollFd

end Libcr
