import Libcr.Hook.Turns

/-!
# The result of `connect`

A native `connect` that is in progress is followed by up to ten rounds of `poll` on the
descriptor, each of 10 ms, until one answers 1. What the last round has left in `revents`
decides: `POLLOUT` is taken for a connection, also when `POLLERR` or `POLLHUP` say that the
attempt has failed.

The address that `connect` copies into the entry of the descriptor is not read by any
function.
-/

namespace Libcr

namespace HookSys

/-- `poll` with hooks on, on one descriptor whose `revents` is 0: the result, and what
`revents` is afterwards. `written` is what `poll_inner` leaves there if it does not find
the deadline expired. -/
def pollOne (st : HookSys) (fd : Fd) (events : BitVec 16) (timeout : Int)
    (written : BitVec 16) : Int × BitVec 16 × HookSys :=
  let expired := (fixCoroutineTimeout st.task st.waits.head.now timeout).2.2
  let r := st.pollInner [⟨fd, events⟩] timeout
  (r.1, if expired then 0 else written, r.2)

/-- The loop of `connect`, with the rounds that are left and the `revents` of the last one:
the `revents` it leaves with. -/
def connectWait (fd : Fd) :
    Nat → BitVec 16 → Stream' (BitVec 16) → HookSys → BitVec 16 × HookSys
  | 0, revents, _, st => (revents, st)
  | rounds + 1, _, written, st =>
      let r := st.pollOne fd (pollOut ||| pollErr ||| pollHup) 10 written.head
      if r.1 = 1 then r.2 else connectWait fd rounds r.2.1 written.tail r.2.2

/-- `connect`. -/
def connect (st : HookSys) (fd : Fd) (written : Stream' (BitVec 16)) : Int × HookSys :=
  let r := st.native (.connect fd)
  if ¬ st.isEnableSysHook then r
  else
    match r.2.getByFd fd with
    | none => r
    | some _ =>
        if ¬ (r.1 < 0 ∧ r.2.errno = Errno.einprogress) then r
        else
          let w := connectWait fd 10 0 written r.2
          if w.1 &&& pollOut ≠ 0 then (0, { w.2 with errno := 0 }) else (r.1, w.2)

/-- The answer of the `i`-th round. -/
def roundRet (st : HookSys) (i : Nat) : Int :=
  if st.expiredAt 10 i then -1 else (st.waits.get i).ret

/-- The `revents` after the `i`-th round. -/
def roundRevents (st : HookSys) (written : Stream' (BitVec 16)) (i : Nat) : BitVec 16 :=
  if st.expiredAt 10 i then 0 else written.get i

/-- The `i`-th round is made: there are ten, and none after one that answers 1. -/
def RoundMade (st : HookSys) (i : Nat) : Prop := i < 10 ∧ ∀ j < i, st.roundRet j ≠ 1

/-- The `i`-th round is the last one. -/
def RoundLast (st : HookSys) (i : Nat) : Prop :=
  st.RoundMade i ∧ (st.roundRet i = 1 ∨ i = 9)

end HookSys

/-- The socket is writable and the attempt to connect has not failed. -/
def Writable (revents : BitVec 16) : Prop :=
  revents &&& pollOut ≠ 0 ∧ revents &&& (pollErr ||| pollHup) = 0

/-- The socket is writable because the attempt to connect has failed. -/
def Refused (revents : BitVec 16) : Prop :=
  revents &&& pollOut ≠ 0 ∧ revents &&& (pollErr ||| pollHup) ≠ 0

/-- The native `connect` has failed with `EINPROGRESS`. -/
def HookSys.InProgress (st : HookSys) : Prop :=
  st.natives.head.ret < 0 ∧ st.natives.head.errno = Errno.einprogress

/-- A connection was established: at once, or before one of the rounds. -/
def HookSys.Established (st : HookSys) (written : Stream' (BitVec 16)) : Prop :=
  st.natives.head.ret = 0 ∨
    st.InProgress ∧ ∃ i, st.RoundMade i ∧ Writable (st.roundRevents written i)

/-- What `connect` should return. -/
structure ConnectLaw (st : HookSys) (fd : Fd) (written : Stream' (BitVec 16)) : Prop where
  zero : (st.connect fd written).1 = 0 → st.Established written
  other : ¬ st.Established written → (st.connect fd written).1 = -1

section Rounds

variable {st : HookSys} {fd : Fd} {written : Stream' (BitVec 16)}

/-- A round seen from the beginning of the loop. -/
theorem HookSys.Waited.pollOne {i : Nat} {u : HookSys} (h : st.Waited 10 i u) (fd : Fd)
    (events : BitVec 16) (written : Stream' (BitVec 16)) :
    st.Waited 10 (i + 1) (u.pollOne fd events 10 (written.get i)).2.2 ∧
      (u.pollOne fd events 10 (written.get i)).1 = st.roundRet i ∧
      (u.pollOne fd events 10 (written.get i)).2.1 = st.roundRevents written i := by
  have hexpired : (fixCoroutineTimeout u.task u.waits.head.now 10).2.2 = st.expiredAt 10 i := by
    rw [h.task, h.waits, Stream'.head_drop]
    rfl
  refine ⟨(h.pollInner [⟨fd, events⟩]).1, ?_, ?_⟩
  · change (u.pollInner [⟨fd, events⟩] 10).1 = _
    unfold HookSys.pollInner roundRet
    dsimp only
    rw [hexpired, h.waits, Stream'.head_drop]
    split <;> rfl
  · change (if _ then _ else _) = _
    rw [hexpired]
    rfl

/-- The loop leaves with the `revents` of the last round. -/
theorem HookSys.connectWait_last {k rounds : Nat} {u : HookSys} {revents : BitVec 16}
    (hk : k + rounds = 9) (hmade : st.RoundMade k) (hu : st.Waited 10 k u) :
    ∃ i, st.RoundLast i ∧ (connectWait fd (rounds + 1) revents (written.drop k) u).1 =
      st.roundRevents written i := by
  induction rounds generalizing k u revents with
  | zero =>
      obtain ⟨-, -, hrevents⟩ := hu.pollOne fd (pollOut ||| pollErr ||| pollHup) written
      refine ⟨k, ⟨hmade, Or.inr hk⟩, ?_⟩
      simp only [connectWait, Stream'.head_drop]
      split <;> exact hrevents
  | succ rounds ih =>
      obtain ⟨hu', hret, hrevents⟩ := hu.pollOne fd (pollOut ||| pollErr ||| pollHup) written
      rw [connectWait]
      simp only [Stream'.head_drop, Stream'.tail_drop']
      split
      · next hone => exact ⟨k, ⟨hmade, Or.inl (hret.symm.trans hone)⟩, hrevents⟩
      · next hnot =>
          refine ih (by omega) ⟨by omega, ?_⟩ hu'
          intro j hj
          rcases Nat.lt_succ_iff_lt_or_eq.mp hj with hj | rfl
          · exact hmade.2 j hj
          · exact fun hone => hnot (hret.trans hone)

theorem HookSys.RoundMade.mono {i k : Nat} (hk : st.RoundMade k) (hi : i ≤ k) :
    st.RoundMade i :=
  ⟨Nat.lt_of_le_of_lt hi hk.1, fun j hj => hk.2 j (Nat.lt_of_lt_of_le hj hi)⟩

/-- There is only one last round, and it comes after all others. -/
theorem HookSys.RoundLast.le {i k : Nat} (hk : st.RoundLast k) (hi : st.RoundMade i) :
    i ≤ k := by
  rcases hk.2 with hone | rfl
  · by_contra hlt
    exact hi.2 k (by omega) hone
  · exact Nat.le_of_lt_succ hi.1

/-- The result of `connect` on a tracked descriptor. -/
theorem HookSys.connect_result {lp : RpcHook} (hhook : st.isEnableSysHook = true)
    (htracked : st.getByFd fd = some lp) (written : Stream' (BitVec 16)) :
    ¬ st.InProgress ∧ (st.connect fd written).1 = st.natives.head.ret ∨
      st.InProgress ∧ ∃ k, st.RoundLast k ∧ (st.connect fd written).1 =
        if st.roundRevents written k &&& pollOut ≠ 0 then 0 else st.natives.head.ret := by
  have htracked' : (st.native (.connect fd)).2.getByFd fd = some lp := htracked
  have herrno : (st.native (.connect fd)).1 < 0 →
      (st.native (.connect fd)).2.errno = st.natives.head.errno := fun hneg => if_pos hneg
  unfold connect
  dsimp only
  rw [if_neg (by simp [hhook]), htracked']
  dsimp only
  split
  · next hdone =>
      refine Or.inl ⟨?_, rfl⟩
      rintro ⟨hneg, hprogress⟩
      exact hdone ⟨hneg, (herrno hneg).trans hprogress⟩
  · next hwait =>
      rw [not_not] at hwait
      obtain ⟨k, hlast, hrevents⟩ : ∃ k, st.RoundLast k ∧
          (connectWait fd 10 0 written (st.native (.connect fd)).2).1 =
            st.roundRevents written k :=
        connectWait_last (k := 0) rfl ⟨by decide, by simp⟩ ⟨rfl, rfl⟩
      refine Or.inr ⟨⟨hwait.1, (herrno hwait.1).symm.trans hwait.2⟩, k, hlast, ?_⟩
      rw [hrevents]
      split <;> rfl

end Rounds

/-- `connect` on a tracked descriptor returns what it should, unless the last round reports
that the attempt has failed and none before it reports a connection. -/
theorem connect_law_iff {st : HookSys} {fd : Fd} {lp : RpcHook}
    (hhook : st.isEnableSysHook = true) (htracked : st.getByFd fd = some lp)
    (hnative : st.natives.head.ret = 0 ∨ st.natives.head.ret = -1)
    (written : Stream' (BitVec 16)) :
    ConnectLaw st fd written ↔ ¬ (st.InProgress ∧ ∃ k, st.RoundLast k ∧
      Refused (st.roundRevents written k) ∧
      ∀ i < k, ¬ Writable (st.roundRevents written i)) := by
  rcases HookSys.connect_result hhook htracked written with
    ⟨hdone, hresult⟩ | ⟨hprogress, k, hlast, hresult⟩
  · refine iff_of_true ⟨?_, ?_⟩ fun h => hdone h.1
    · intro hzero
      exact Or.inl (hresult.symm.trans hzero)
    · intro hnot
      rw [hresult]
      exact hnative.resolve_left fun hzero => hnot (Or.inl hzero)
  · have hneg : st.natives.head.ret = -1 := by
      have := hprogress.1
      omega
    rw [hneg] at hresult
    constructor
    · rintro hlaw ⟨-, k', hlast', ⟨hout, hbad⟩, hbefore⟩
      obtain rfl : k' = k := Nat.le_antisymm (hlast.le hlast'.1) (hlast'.le hlast.1)
      rw [if_pos hout] at hresult
      rcases hlaw.zero hresult with hzero | ⟨-, i, hmade, hwritable⟩
      · omega
      · rcases Nat.lt_or_eq_of_le (hlast.le hmade) with hlt | rfl
        · exact hbefore i hlt hwritable
        · exact hbad hwritable.2
    · intro hgood
      refine ⟨?_, ?_⟩
      · intro hzero
        have hout : st.roundRevents written k &&& pollOut ≠ 0 := by
          by_contra hno
          rw [if_neg (not_not.mpr hno), hzero] at hresult
          simp at hresult
        refine Or.inr ⟨hprogress, ?_⟩
        by_contra hnone
        rw [not_exists] at hnone
        refine hgood ⟨hprogress, k, hlast, ⟨hout, fun hclean => hnone k ⟨hlast.1, hout, hclean⟩⟩,
          ?_⟩
        intro i hi hwritable
        exact hnone i ⟨hlast.1.mono (Nat.le_of_lt hi), hwritable⟩
      · intro hnot
        rw [hresult, if_neg]
        intro hout
        by_cases hclean : st.roundRevents written k &&& (pollErr ||| pollHup) = 0
        · exact hnot (Or.inr ⟨hprogress, k, hlast.1, hout, hclean⟩)
        · refine hgood ⟨hprogress, k, hlast, ⟨hout, hclean⟩, ?_⟩
          intro i hi hwritable
          exact hnot (Or.inr ⟨hprogress, i, hlast.1.mono (Nat.le_of_lt hi), hwritable⟩)

/-- The connection is established before the third round. -/
theorem connect_law_third :
    ∃ st : HookSys, ∃ written, st.natives.head = ⟨-1, Errno.einprogress⟩ ∧
      (st.connect 5 written).1 = 0 ∧ ConnectLaw st 5 written := by
  let st : HookSys := { trackedHook (Stream'.const ⟨-1, Errno.einprogress⟩) 0 with
    waits := fun i => ⟨0, if i = 2 then 1 else 0, 0, fun _ => none⟩ }
  let written : Stream' (BitVec 16) := fun i => if i = 2 then pollOut else 0
  refine ⟨st, written, rfl, by decide, (connect_law_iff rfl rfl (Or.inr rfl) written).mpr ?_⟩
  rintro ⟨-, k, -, ⟨-, hbad⟩, -⟩
  refine hbad ?_
  change (if _ then _ else if k = 2 then pollOut else 0) &&& _ = _
  split
  · decide
  · split <;> decide

/-- The peer refuses the connection, which the first round reports as `POLLOUT` together with
`POLLERR` and `POLLHUP`. -/
theorem connect_refused_as_success :
    ∃ st : HookSys, ∃ written, st.natives.head = ⟨-1, Errno.einprogress⟩ ∧
      st.roundRet 0 = 1 ∧ st.roundRevents written 0 = pollOut ||| pollErr ||| pollHup ∧
      (st.connect 5 written).1 = 0 ∧ ¬ ConnectLaw st 5 written := by
  let st := trackedHook (Stream'.const ⟨-1, Errno.einprogress⟩) 1
  let written : Stream' (BitVec 16) := Stream'.const (pollOut ||| pollErr ||| pollHup)
  refine ⟨st, written, rfl, rfl, rfl, by decide, ?_⟩
  intro hlaw
  rcases hlaw.zero (by decide) with hzero | ⟨-, i, hmade, -, hclean⟩
  · exact absurd hzero (by decide)
  · cases i with
    | zero => exact absurd hclean (by decide)
    | succ i => exact hmade.2 0 (Nat.succ_pos i) rfl

end Libcr
