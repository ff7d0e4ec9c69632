import Libcr.Scheduler.OnTime

/-!
# Which timeouts are accepted

`poll_inner` never waits for more than `kMaxTimeoutMs`, and the wheel has room for a minute.
But `add_timeout` measures the distance from `timer->start`, the time of the last pass of
the event loop, and not from the current time. After a minute without a pass, even a wait
of zero is refused, and `poll_inner` fails. It sets `errno` to `EINVAL`, but then removes its
descriptors again, and a removal that fails overwrites this. After 2^31 ms without a pass the
distance is cut off to a negative number, which is not refused but can be an index below
the array.
-/

namespace Libcr

/-- The distance that `add_timeout` computes is not less than the size of the event loop's
wheel. -/
def Beyond (start expire : Nat) : Prop :=
  kTimerSize ≤ (expire - start) % 2 ^ 32 ∧ (expire - start) % 2 ^ 32 < 2 ^ 31

/-- The expiry time has a slot in the event loop's wheel: its distance from the start is not
too large, and the index of its slot is not negative. -/
def InReach (w : Wheel) (expire : Nat) : Prop :=
  ¬ Beyond w.start expire ∧ 0 ≤ w.slotIndex (toInt32 ((expire : Int) - w.start))

/-- The distance between two times as an `int`. -/
theorem toInt32_distance {start expire : Nat} (h : start ≤ expire) :
    toInt32 ((expire : Int) - start) =
      if (expire - start) % 2 ^ 32 < 2 ^ 31 then (((expire - start) % 2 ^ 32 : Nat) : Int)
      else (((expire - start) % 2 ^ 32 : Nat) : Int) - 2 ^ 32 := by
  have hmod : ((expire : Int) - start) % ((2 ^ 32 : Nat) : Int) =
      ((expire - start) % 2 ^ 32 : Nat) := by omega
  rw [toInt32, Int.bmod_def, hmod]
  split <;> split <;> omega

/-- What `add_timeout` tests. -/
theorem toInt32_lt_kTimerSize {start expire : Nat} (h : start ≤ expire) :
    toInt32 ((expire : Int) - start) < kTimerSize ↔ ¬ Beyond start expire := by
  have hsize : kTimerSize = 60000 := rfl
  rw [toInt32_distance h, Beyond]
  split <;> omega

/-- As long as nothing is cut off, a time is in reach if it is less than a minute after the
last pass. -/
theorem inReach_iff_lt {w : Wheel} {expire : Nat} (hidx : 0 ≤ w.startIdx)
    (hidx' : w.startIdx < 2 ^ 62) (hstart : w.start ≤ expire)
    (hexpire : expire < w.start + 2 ^ 31) :
    InReach w expire ↔ expire < w.start + kTimerSize := by
  have hsize : kTimerSize = 60000 := rfl
  have hmod : (expire - w.start) % 2 ^ 32 = expire - w.start := Nat.mod_eq_of_lt (by omega)
  have hslot : 0 ≤ w.slotIndex (toInt32 ((expire : Int) - w.start)) := by
    rw [toInt32_distance hstart, hmod, if_pos (by omega), Wheel.slotIndex,
      toInt64_of_range (by omega) (by omega)]
    exact Int.tmod_nonneg _ (by omega)
  rw [InReach, and_iff_left hslot, Beyond, hmod]
  omega

/-- The descriptors of an array that are passed to `epoll_ctl`. -/
def descriptors (fds : List PollFd) : List Fd := (fds.map PollFd.fd).filter (-1 < ·)

section Errno

variable {call : PollCall} {e : Errno}

theorem delErrno_ne (herr : ∀ i, call.delErr i ≠ e) {e' : Errno} (he : e' ≠ e) (i : Nat)
    (fds : List PollFd) (set : Fd → Option Registration) : delErrno call i fds set e' ≠ e := by
  induction fds generalizing i set e' with
  | nil => exact he
  | cons p rest ih =>
      rw [delErrno]
      split
      · cases set p.fd with
        | none => exact ih (herr i) (i + 1) set
        | some r => exact ih he (i + 1) _
      · exact ih he (i + 1) set

/-- `errno` survives the loop exactly if every descriptor is found: none occurs twice, and all
are in the epoll set. -/
theorem delErrno_eq_iff (herr : ∀ i, call.delErr i ≠ e) (i : Nat) (fds : List PollFd)
    (set : Fd → Option Registration) :
    delErrno call i fds set e = e ↔
      (descriptors fds).Nodup ∧ ∀ fd ∈ descriptors fds, (set fd).isSome = true := by
  induction fds generalizing i set with
  | nil => simp [delErrno, descriptors]
  | cons p rest ih =>
      rw [delErrno]
      split
      · next hfd =>
          have hcons : descriptors (p :: rest) = p.fd :: descriptors rest :=
            List.filter_cons_of_pos (decide_eq_true hfd)
          rw [hcons, List.nodup_cons, List.forall_mem_cons]
          cases hp : set p.fd with
          | none =>
              refine iff_of_false (delErrno_ne herr (herr i) (i + 1) rest set) ?_
              rintro ⟨-, hsome, -⟩
              cases hsome
          | some r =>
              change delErrno call (i + 1) rest (Function.update set p.fd none) e = e ↔ _
              rw [ih]
              constructor
              · rintro ⟨hnodup, hfound⟩
                have hnot : p.fd ∉ descriptors rest := by
                  intro hmem
                  have hnone := hfound p.fd hmem
                  rw [Function.update_self] at hnone
                  cases hnone
                refine ⟨⟨hnot, hnodup⟩, rfl, fun fd hmem => ?_⟩
                have hne : fd ≠ p.fd := fun heq => hnot (heq ▸ hmem)
                have hfd := hfound fd hmem
                rw [Function.update_of_ne hne] at hfd
                exact hfd
              · rintro ⟨⟨hnot, hnodup⟩, -, hfound⟩
                refine ⟨hnodup, fun fd hmem => ?_⟩
                have hne : fd ≠ p.fd := fun heq => hnot (heq ▸ hmem)
                rw [Function.update_of_ne hne]
                exact hfound fd hmem
      · next hfd =>
          have hskip : descriptors (p :: rest) = descriptors rest :=
            List.filter_cons_of_neg (by simpa using hfd)
          rw [hskip]
          exact ih (i + 1) set

end Errno

section

variable {tick now : Nat} {size : Int} {s : Sys}

/-- A clock that has not gone back is not behind the wheel. -/
theorem Sys.Reached.start_le (hs : Sys.Reached always tick size s)
    (hclock : ∀ r, Obs.clock r ∈ s.trace → r ≤ now) : (s.wheel.restart now).start ≤ now := by
  unfold Wheel.restart
  split
  · exact Nat.le_refl now
  · exact hclock _ hs.start_read

/-- `add_timeout` on an unlinked item whose time has not passed. -/
theorem Sys.Reached.addTimeout_iff (hs : Sys.Reached always tick size s)
    (hclock : ∀ r, Obs.clock r ∈ s.trace → r ≤ now) {item : FrameId} {expire : Nat}
    (hitem : s.lists.parent item = none) (hexpire : now ≤ expire) :
    ((addTimeout s.wheel s.lists item expire now).1 = 0 ∧
        ∃ k : Int, 0 ≤ k ∧ k < kTimerSize ∧
          (addTimeout s.wheel s.lists item expire now).2.2.parent item = some (.slot k)) ↔
      InReach (s.wheel.restart now) expire := by
  have hstart := hs.start_le hclock
  have hsize : (s.wheel.restart now).size = kTimerSize :=
    (s.wheel.restart_size now).trans hs.wheel_size
  rw [InReach, ← toInt32_lt_kTimerSize (Nat.le_trans hstart hexpire), ← hsize]
  unfold addTimeout
  dsimp only
  rw [if_neg (Nat.not_lt.mpr hstart), if_neg (Nat.not_lt.mpr hexpire)]
  split
  · next hfar =>
      refine iff_of_false ?_ fun hnear => absurd hnear.1 (Int.not_lt.mpr hfar)
      rintro ⟨hret, -⟩
      cases hret
  · next hnear =>
      have hself : ∀ k, (s.lists.append (.slot k) item).parent item = some (.slot k) :=
        fun k => Function.update_self ..
      rw [TimerLists.addTail_of_unlinked hitem]
      constructor
      · rintro ⟨-, k, hk, -, hparent⟩
        rw [hself, Option.some.injEq, ListId.slot.injEq] at hparent
        exact ⟨Int.not_le.mp hnear, hparent ▸ hk⟩
      · rintro ⟨-, hslot⟩
        refine ⟨rfl, _, hslot, ?_, hself _⟩
        exact Int.tmod_lt_of_pos _ (by exact_mod_cast (s.wheel.restart now).size_pos)

/-- A `poll_inner` call whose timer is refused fails, with the `errno` that the removal of its
descriptors leaves. -/
theorem Sys.Reached.refused_iff (hs : Sys.Reached always tick size s) {call : PollCall}
    (hclock : ∀ r, Obs.clock r ∈ s.trace → r ≤ call.tick) {t : TaskId} {s' : Sys}
    (hcurr : s.curr = some (.worker t)) (hstep : s.step (.poll call) = some s')
    (hfix : (s.fix t call).2.2 = false) (e : Errno) :
    s'.trace.getLast? = some (.polled (.worker t) (-1) (some e) []) ↔
      (s.register call).2.2 = false ∧ ¬ (call.tick ≤ s.expireAt t call ∧
        ¬ Beyond (s.wheel.restart call.tick).start (s.expireAt t call)) ∧ s.refusal call = e := by
  have hstart := hs.start_le hclock
  have hacc : s.accepts t call ↔ call.tick ≤ s.expireAt t call ∧
      ¬ Beyond (s.wheel.restart call.tick).start (s.expireAt t call) := by
    rw [Sys.accepts, and_iff_right hstart, hs.wheel_size]
    refine and_congr_right fun hexpire => ?_
    rw [← toInt32_lt_kTimerSize (Nat.le_trans hstart hexpire)]
    rfl
  rw [← hacc]
  cases hs.inv.step_transition hstep with
  | expired ht hcurr' hpc hexpired =>
      obtain rfl := Sys.worker_unique hcurr' hcurr
      rw [hfix] at hexpired
      cases hexpired
  | fallback ht hcurr' hpc hfix' hreg => simp [Sys.emit, hreg]
  | reject ht hcurr' hpc hfix' hreg hrefused =>
      obtain rfl := Sys.worker_unique hcurr' hcurr
      rw [and_iff_right hreg, and_iff_right hrefused]
      simp [Sys.rejected, ← List.append_assoc]
  | suspend ht hcurr' hpc hlast hfix' hreg haccepted =>
      obtain rfl := Sys.worker_unique hcurr' hcurr
      refine iff_of_false ?_ fun h => h.2.1 haccepted
      simp [Sys.suspended, ← List.append_assoc]

/-- Timeouts of at most `kMaxTimeoutMs` get a slot of the wheel exactly while they are in reach
of the last pass of the event loop: on any reachable wheel, at any time that is not before an
earlier clock reading. `poll_inner` fails with `EINVAL` exactly when its time is beyond this
and every descriptor is found when it is removed again. -/
theorem admissible_accepted_iff (hs : Sys.Reached always tick size s)
    (hclock : ∀ r, Obs.clock r ∈ s.trace → r ≤ now) :
    (∀ (item : FrameId) (expire : Nat), s.lists.parent item = none → now ≤ expire →
        (expire : Int) ≤ now + kMaxTimeoutMs →
        (((addTimeout s.wheel s.lists item expire now).1 = 0 ∧
            ∃ k : Int, 0 ≤ k ∧ k < kTimerSize ∧
              (addTimeout s.wheel s.lists item expire now).2.2.parent item = some (.slot k)) ↔
          InReach (s.wheel.restart now) expire)) ∧
      ∀ (t : TaskId) (call : PollCall) (s' : Sys), call.tick = now → -1 ≤ call.timeout →
        s.curr = some (.worker t) → s.step (.poll call) = some s' →
        (s.fix t call).2.2 = false →
        (s'.trace.getLast? = some (.polled (.worker t) (-1) (some Errno.einval) []) ↔
          (s.register call).2.2 = false ∧ ¬ (now ≤ s.expireAt t call ∧
            ¬ Beyond (s.wheel.restart now).start (s.expireAt t call)) ∧
              s.refusal call = Errno.einval) ∧
        ((∀ i, call.delErr i ≠ Errno.einval) →
          (s.refusal call = Errno.einval ↔ (descriptors call.fds).Nodup ∧
            ∀ fd ∈ descriptors call.fds, ((s.register call).1 fd).isSome = true)) := by
  constructor
  · intro item expire hitem hexpire _
    exact hs.addTimeout_iff hclock hitem hexpire
  · rintro t call s' rfl _ hcurr hstep hfix
    exact ⟨hs.refused_iff hclock hcurr hstep hfix Errno.einval,
      fun herr => delErrno_eq_iff herr 0 call.fds (s.register call).1⟩

end

/-- A wheel made at 1000 takes a time of at most 10 ms after 1005. -/
theorem admissible_accepted_iff_early :
    (addTimeout (Sys.init 1000 1).wheel (Sys.init 1000 1).lists 0 1012 1005).1 = 0 := by
  refine (((admissible_accepted_iff (Reaches.refl (Sys.init 1000 1)) ?_).1 0 1012
    ?_ (by decide) (by decide)).mpr ?_).1
  · intro r hr
    have htick := init_trace hr
    rw [Obs.ofCreation, decide_eq_true_eq] at htick
    omega
  · rfl
  · exact (inReach_iff_lt (by decide) (by decide) (by decide) (by decide)).mpr (by decide)

/-- The environment was made at 1000, and the event loop has not run when a task polls with
timeout zero at 61000. -/
theorem admissible_refused :
    ∃ s, Sys.Reached always 1000 1 s ∧
      (s.trace.filterMap fun
        | .clock r => some r
        | _ => none) = [1000, 61000] ∧
      s.trace.getLast? = some (.polled (.worker 0) (-1) (some Errno.einval) []) := by
  obtain ⟨s, hs, htest⟩ := exec_reached_of 1000 1
    [.newTask plainAttr, .poll (plainPoll 5 0 61000)]
    (fun s => (s.trace.filterMap fun
        | .clock r => some r
        | _ => none) = [1000, 61000] ∧
      s.trace.getLast? = some (.polled (.worker 0) (-1) (some Errno.einval) []))
    (by decide +kernel)
  exact ⟨s, hs, of_decide_eq_true htest⟩

end Libcr
