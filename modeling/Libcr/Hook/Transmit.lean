import Mathlib.Data.List.Induction
import Libcr.Hook.Turns

/-!
# The bytes that `write` and `send` hand over

The first native call is made at once, every further one after a wait, and each is
given the part of the buffer that the calls before it have left. The loop goes on after
`EAGAIN` until the whole buffer is handed over. An empty buffer never enters the loop,
so that the answer to the first call is then the result whatever it is.
-/

namespace Libcr

/-- The bytes of the buffer that the native calls of a log have taken. -/
def taken (buf : List UInt8) (log : List IoObs) : List UInt8 :=
  log.flatMap fun
    | .native (.transfer _ _ offset _) ret => (buf.drop offset.toNat).take ret.toNat
    | _ => []

/-- Every transfer of a log begins where those before it have ended and asks for the rest
of a buffer of `nbyte` bytes. -/
def Contiguous (nbyte : Nat) (log : List IoObs) : Prop :=
  ∀ before f fd offset length ret after,
    log = before ++ .native (.transfer f fd offset length) ret :: after →
      offset = transferred before ∧ length = nbyte - transferred before

/-- A native function that moves bytes fails with `-1` and moves no more than asked for. -/
def Plausible (log : List IoObs) : Prop :=
  ∀ f fd offset length ret, .native (.transfer f fd offset length) ret ∈ log →
    -1 ≤ ret ∧ ret ≤ length

/-- The last wait of a log has found the deadline expired. -/
def LastWaitExpired (log : List IoObs) : Prop :=
  ∃ before o after, log = before ++ o :: after ∧ o.expired = true ∧
    ∀ x ∈ after, ∃ call ret, x = .native call ret

/-- What a `write` or `send` call of the buffer should do, where `natives` are the answers
of the native functions and `r` is the result and the state after the call. -/
structure TransmitLaw (natives : Stream' NativeAnswer) (buf : List UInt8)
    (r : Int × HookSys) : Prop where
  offsets : Contiguous buf.length r.2.log
  bytes : taken buf r.2.log = buf.take (transferred r.2.log).toNat
  result : 0 < transferred r.2.log → r.1 = transferred r.2.log
  nothing : r.1 = -1 ∨ r.1 = 0 → transferred r.2.log = 0
  short : r.1 < buf.length → (∃ call a, lastTransfer natives r.2.log = some (call, a) ∧
    (a.ret = 0 ∨ a.Failed)) ∨ LastWaitExpired r.2.log

section Logs

variable {nbyte : Nat} {log : List IoObs}

theorem transferred_append (log log' : List IoObs) :
    transferred (log ++ log') = transferred log + transferred log' := by
  simp [transferred]

@[simp] theorem transferred_transfer (f : Transfer) (fd : Fd) (offset length ret : Int) :
    transferred [.native (.transfer f fd offset length) ret] = max ret 0 := by
  simp [transferred]

theorem transferred_nonneg (log : List IoObs) : 0 ≤ transferred log := by
  induction log with
  | nil => exact Int.le_refl 0
  | cons o rest ih =>
      have ho : 0 ≤ transferred [o] := by
        cases o with
        | waited => exact Int.le_refl 0
        | native call ret =>
            cases call with
            | transfer f fd offset length =>
                rw [transferred_transfer]
                exact Int.le_max_right ret 0
            | _ => exact Int.le_refl 0
      rw [← List.singleton_append, transferred_append]
      omega

theorem contiguous_nil (nbyte : Nat) : Contiguous nbyte [] := by
  intro before f fd offset length ret after h
  simp at h

theorem Contiguous.wait (h : Contiguous nbyte log) {fds : List PollFd} {timeout : Int}
    {expired : Bool} {ret : Int} :
    Contiguous nbyte (log ++ [.waited fds timeout expired ret]) := by
  intro before f fd offset length ret' after hlog
  rcases split_append hlog with ⟨mid, hold, -⟩ | ⟨os₁, -, hnew⟩
  · exact h _ _ _ _ _ _ _ hold
  · have hmem : IoObs.native (.transfer f fd offset length) ret' ∈
        [IoObs.waited fds timeout expired ret] := by simp [hnew]
    simp at hmem

theorem Contiguous.transfer (h : Contiguous nbyte log) (f : Transfer) (fd : Fd) (ret : Int) :
    Contiguous nbyte
      (log ++ [.native (.transfer f fd (transferred log) (nbyte - transferred log)) ret]) := by
  intro before f' fd' offset length ret' after hlog
  rcases split_append hlog with ⟨mid, hold, -⟩ | ⟨os₁, hbefore, hnew⟩
  · exact h _ _ _ _ _ _ _ hold
  · cases os₁ with
    | nil =>
        simp only [List.nil_append, List.cons.injEq, IoObs.native.injEq,
          NativeCall.transfer.injEq] at hnew
        obtain ⟨⟨⟨-, -, rfl, rfl⟩, -⟩, -⟩ := hnew
        simp [hbefore]
    | cons o rest => simp at hnew

/-- A wait moves no bytes, so that the transfer after it goes on where the last one has
ended. -/
theorem Contiguous.next (h : Contiguous nbyte log) {natives : Stream' NativeAnswer} {k : Nat}
    (hcount : (answered natives log).length = k) (f : Transfer) (fd : Fd) (fds : List PollFd)
    (timeout : Int) (expired : Bool) (ret : Int) {log' : List IoObs}
    (hlog' : log' = log ++ [.waited fds timeout expired ret] ++
      [.native (.transfer f fd (transferred log) (nbyte - transferred log))
        (natives.get k).ret]) :
    Contiguous nbyte log' ∧ transferred log' = transferred log + max (natives.get k).ret 0 ∧
      lastTransfer natives log' = some (.transfer f fd (transferred log)
        (nbyte - transferred log), natives.get k) ∧
      (answered natives log').length = k + 1 := by
  have hsame : transferred (log ++ [.waited fds timeout expired ret]) = transferred log := by
    rw [transferred_append]
    simp [transferred]
  have hcalls : (answered natives (log ++ [.waited fds timeout expired ret])).length = k := by
    rw [answered_append, List.length_append, hcount]
    rfl
  have hwait : Contiguous nbyte (log ++ [.waited fds timeout expired ret]) := h.wait
  have htransfer := hwait.transfer f fd (natives.get k).ret
  rw [hsame] at htransfer
  subst hlog'
  refine ⟨htransfer, ?_, ?_, ?_⟩
  · rw [transferred_append, hsame, transferred_transfer]
  · rw [lastTransfer_concat, hcalls]
  · rw [answered_append, List.length_append, hcalls]
    rfl

theorem Contiguous.of_append {log' : List IoObs} (h : Contiguous nbyte (log ++ log')) :
    Contiguous nbyte log := by
  intro before f fd offset length ret after hlog
  refine h before f fd offset length ret (after ++ log') ?_
  rw [hlog, List.append_assoc, List.cons_append]

/-- The transfers of a log take the buffer from its beginning on, without gap or
repetition. -/
theorem Contiguous.taken_eq {buf : List UInt8} (h : Contiguous buf.length log)
    (hanswers : Plausible log) :
    taken buf log = buf.take (transferred log).toNat ∧ transferred log ≤ buf.length := by
  induction log using List.reverseRecOn with
  | nil => simp [taken, transferred]
  | append_singleton log o ih =>
      obtain ⟨hbytes, hle⟩ := ih h.of_append fun f fd offset length ret hmem =>
        hanswers f fd offset length ret (List.mem_append_left _ hmem)
      have happend : taken buf (log ++ [o]) = taken buf log ++ taken buf [o] := by
        simp [taken]
      rw [happend, hbytes, transferred_append]
      cases o with
      | waited => simpa [taken, transferred] using hle
      | native call ret =>
          cases call with
          | transfer f fd offset length =>
              obtain ⟨rfl, rfl⟩ := h log f fd offset length ret [] rfl
              obtain ⟨-, hret⟩ := hanswers f fd (transferred log)
                (buf.length - transferred log) ret (by simp)
              have hnonneg := transferred_nonneg log
              have hsum : (transferred log + max ret 0).toNat =
                  (transferred log).toNat + ret.toNat := by omega
              rw [transferred_transfer, hsum, List.take_add]
              exact ⟨by simp [taken], by omega⟩
          | _ => simpa [taken, transferred] using hle

end Logs

section Turns

variable {st : HookSys} {f : Transfer} {fd : Fd} {nbyte : Nat} {timeout : Int}

/-- Where the loop is after some turns, the first native call included. -/
def HookSys.Sending (st : HookSys) (nbyte : Nat) (timeout : Int) : Outcome → Prop
  | .inl p => Contiguous nbyte p.st.log ∧ p.n = transferred p.st.log ∧
      ∃ i, st.Waited timeout i p.st ∧ p.st.natives = st.natives.drop (i + 1) ∧
        (answered st.natives p.st.log).length = i + 1
  | .inr r => Contiguous nbyte r.2.log ∧
      (r.1 = transferred r.2.log ∧ nbyte ≤ transferred r.2.log ∨
        ∃ call a, lastTransfer st.natives r.2.log = some (call, a) ∧ (a.ret = 0 ∨ a.Failed) ∧
          r.1 = if transferred r.2.log = 0 then a.ret else transferred r.2.log)

/-- A turn hands over the next part of the buffer, goes on after `EAGAIN`, and leaves the
loop after another failure or when nothing is left. -/
theorem HookSys.Sending.turn (hmark : st.task.Unmarked) (hpos : 0 < nbyte) {p : Progress}
    (h : st.Sending nbyte timeout (.inl p)) :
    st.Sending nbyte timeout (transmitTurn f fd nbyte timeout p) := by
  obtain ⟨hcont, hn, i, hwaited, hnatives, hcount⟩ := h
  have hnonneg := transferred_nonneg p.st.log
  unfold transmitTurn
  split
  · obtain ⟨u, hready, hwaited', hnatives', hlog'⟩ :=
      hwaited.waitIoReady hmark fd (pollOut ||| pollErr ||| pollHup)
    rw [hready]
    dsimp only
    obtain ⟨hret, herrno, hrest⟩ :=
      native_of_drop (hnatives'.trans hnatives) (.transfer f fd p.n (nbyte - p.n))
    obtain ⟨hcont', hsum, hlast, hcount'⟩ := hcont.next hcount f fd
      [⟨fd, pollOut ||| pollErr ||| pollHup⟩] timeout (st.expiredAt timeout i) _
      (show (u.native (.transfer f fd p.n (nbyte - p.n))).2.log = _ by
        rw [native_log, hret, hlog', hn]
        rfl)
    rw [if_neg (by decide), hret]
    split
    · next hend =>
        have hzero : max (st.natives.get (i + 1)).ret 0 = 0 := by
          rcases hend with ⟨hneg, -⟩ | hzero <;> omega
        refine ⟨hcont', Or.inr ⟨_, _, hlast, ?_, ?_⟩⟩
        · rcases hend with ⟨hneg, hother⟩ | hzero
          · exact Or.inr ⟨hneg, by rwa [← herrno hneg]⟩
          · exact Or.inl hzero
        · rw [hsum, hzero, Int.add_zero, ← hn]
    · refine ⟨hcont', ?_, i + 1, hwaited'.native _, hrest, hcount'⟩
      rw [hsum]
      dsimp only
      split <;> omega
  · next hfull =>
      have hle : (nbyte : Int) ≤ transferred p.st.log := by omega
      refine ⟨hcont, Or.inl ⟨?_, hle⟩⟩
      dsimp only
      rw [if_neg (by omega), hn]

/-- A `write` or `send` call of a buffer that is not empty, on a tracked descriptor, that has
returned. -/
theorem HookSys.transmit_returned {fuel : Nat} {lp : RpcHook} {r : Int × HookSys}
    (hhook : st.isEnableSysHook = true) (htracked : st.getByFd fd = some lp)
    (hmark : st.task.Unmarked) (hlog : st.log = []) (hpos : 0 < nbyte)
    (hret : st.transmit f fd nbyte fuel = .inr r) :
    st.Sending nbyte lp.writeTimeout.ms (.inr r) := by
  have hcont : Contiguous nbyte (st.native (.transfer f fd 0 nbyte)).2.log := by
    rw [native_log, hlog]
    simpa [transferred] using
      (contiguous_nil nbyte).transfer f fd (st.native (.transfer f fd 0 nbyte)).1
  have hcalls : (st.native (.transfer f fd 0 nbyte)).2.log =
      [] ++ [.native (.transfer f fd 0 nbyte) st.natives.head.ret] := by
    rw [native_log, hlog]
    rfl
  unfold transmit at hret
  rw [if_neg (by simp [hhook]), htracked] at hret
  dsimp only at hret
  split at hret
  · next hzero =>
      obtain rfl := Sum.inr.inj hret
      refine ⟨hcont, Or.inr ⟨.transfer f fd 0 nbyte, st.natives.get 0, ?_, Or.inl hzero, ?_⟩⟩
      · rw [hcalls]
        exact lastTransfer_concat
      · have hnone : transferred (st.native (.transfer f fd 0 nbyte)).2.log = 0 := by
          rw [hcalls, List.nil_append, transferred_transfer]
          change max (st.native (.transfer f fd 0 nbyte)).1 0 = 0
          omega
        rw [hnone]
        rfl
  · rw [← hret]
    refine loop_invariant (fun p hp => hp.turn hmark hpos) fuel ⟨hcont, ?_, 0,
      ⟨rfl, rfl⟩, ?_, ?_⟩
    · rw [hcalls, List.nil_append, transferred_transfer]
      change (if st.natives.head.ret > 0 then st.natives.head.ret else 0) = _
      split <;> omega
    · rfl
    · rw [hcalls]
      rfl

/-- The result of a call with an empty buffer is the answer to the first native call. -/
theorem HookSys.transmit_empty {fuel : Nat} {lp : RpcHook} {r : Int × HookSys}
    (hhook : st.isEnableSysHook = true) (htracked : st.getByFd fd = some lp)
    (hlog : st.log = []) (hret : st.transmit f fd 0 fuel = .inr r)
    (hanswers : Plausible r.2.log) :
    r.1 = (st.natives.get 0).ret ∧
      r.2.log = [.native (.transfer f fd 0 0) (st.natives.get 0).ret] := by
  unfold transmit at hret
  rw [if_neg (by simp [hhook]), htracked] at hret
  dsimp only at hret
  split at hret
  · obtain rfl := Sum.inr.inj hret
    exact ⟨rfl, by rw [native_log, hlog]; rfl⟩
  · next hne =>
      cases fuel with
      | zero => simp [loop] at hret
      | succ fuel =>
          have hzero : ¬ (if (st.native (.transfer f fd 0 (0 : Nat))).1 > 0 then
              (st.native (.transfer f fd 0 (0 : Nat))).1 else 0) < ((0 : Nat) : Int) := by
            split <;> omega
          simp only [loop, transmitTurn, if_neg hzero] at hret
          obtain rfl := Sum.inr.inj hret
          have hlog' : (st.native (.transfer f fd 0 (0 : Nat))).2.log =
              [.native (.transfer f fd 0 0) (st.natives.get 0).ret] := by
            rw [native_log, hlog]
            rfl
          refine ⟨?_, hlog'⟩
          have hfirst : (st.native (.transfer f fd 0 (0 : Nat))).1 = (st.natives.get 0).ret := rfl
          have hle := (hanswers f fd 0 0 (st.natives.get 0).ret (by
            rw [hlog']
            exact List.mem_singleton.mpr rfl)).2
          have hnot : ¬ (st.native (.transfer f fd 0 (0 : Nat))).1 > 0 := by omega
          dsimp only
          rw [if_neg hnot, if_pos ⟨by omega, rfl⟩, hfirst]

end Turns

/-- A `write` or `send` call on a tracked descriptor does what it should, unless its buffer is
empty and the native function answers `EAGAIN` at once. -/
theorem transmit_law_iff {st : HookSys} {call : IoCall} {fd : Fd} {buf : List UInt8}
    {fuel : Nat} {lp : RpcHook} {r : Int × HookSys}
    (hcall : call = .write fd buf.length ∨ call = .send fd buf.length)
    (hhook : st.isEnableSysHook = true) (htracked : st.getByFd fd = some lp)
    (hmark : st.task.Unmarked) (hlog : st.log = []) (hret : st.call fuel call = .inr r)
    (hanswers : Plausible r.2.log) :
    TransmitLaw st.natives buf r ↔ ¬ (buf = [] ∧ (st.natives.get 0).Blocked) := by
  obtain ⟨f, hf⟩ : ∃ f, st.transmit f fd buf.length fuel = .inr r := by
    rcases hcall with rfl | rfl
    · exact ⟨.write, hret⟩
    · exact ⟨.send, hret⟩
  cases buf with
  | nil =>
      obtain ⟨hfirst, hone⟩ := HookSys.transmit_empty hhook htracked hlog hf hanswers
      have hle : (st.natives.get 0).ret ≤ 0 :=
        (hanswers f fd 0 0 _ (by rw [hone]; exact List.mem_singleton.mpr rfl)).2
      have hlast : lastTransfer st.natives r.2.log =
          some (.transfer f fd 0 0, st.natives.get 0) := by
        rw [hone, ← List.nil_append [IoObs.native _ _]]
        exact lastTransfer_concat
      have hnone : transferred r.2.log = 0 := by
        rw [hone, transferred_transfer]
        omega
      constructor
      · rintro hlaw ⟨-, hneg, hagain⟩
        rcases hlaw.short (by simpa [hfirst] using hneg) with ⟨call, a, hcall, ha⟩ | hwait
        · rw [hlast] at hcall
          obtain ⟨-, rfl⟩ := Prod.mk.inj (Option.some.inj hcall)
          rcases ha with hzero | hfailed
          · omega
          · exact hfailed.2 hagain
        · obtain ⟨before, o, after, hsplit, hexpired, -⟩ := hwait
          have hmem : o ∈ r.2.log := by simp [hsplit]
          rw [hone, List.mem_singleton] at hmem
          simp [hmem, IoObs.expired] at hexpired
      · intro hgood
        refine ⟨?_, ?_, by omega, fun _ => hnone, ?_⟩
        · rw [hone]
          simpa [transferred] using
            (contiguous_nil 0).transfer f fd (st.natives.get 0).ret
        · simp [hone, taken]
        · intro hshort
          have hneg : (st.natives.get 0).ret < 0 := by simpa [hfirst] using hshort
          exact Or.inl ⟨_, _, hlast, Or.inr ⟨hneg, fun hagain => hgood ⟨rfl, hneg, hagain⟩⟩⟩
  | cons b rest =>
      have hpos : 0 < (b :: rest).length := Nat.succ_pos _
      obtain ⟨hcont, hend⟩ := HookSys.transmit_returned hhook htracked hmark hlog hpos hf
      refine iff_of_true ?_ (by simp)
      obtain ⟨hbytes, hle⟩ := hcont.taken_eq hanswers
      have hnonneg := transferred_nonneg r.2.log
      refine ⟨hcont, hbytes, ?_, ?_, ?_⟩
      · intro hsome
        rcases hend with ⟨hall, -⟩ | ⟨call, a, -, -, hresult⟩
        · exact hall
        · rw [hresult, if_neg (by omega)]
      · intro hnothing
        rcases hend with ⟨hall, hfull⟩ | ⟨call, a, -, -, hresult⟩
        · omega
        · by_contra hsome
          rw [if_neg hsome] at hresult
          omega
      · intro hshort
        rcases hend with ⟨hall, hfull⟩ | ⟨call, a, hlast, ha, -⟩
        · omega
        · exact Or.inl ⟨call, a, hlast, ha⟩

/-- The kernel takes two of five bytes, then none, then the rest. -/
theorem transmit_law_partial :
    ∃ st', (trackedHook (Stream'.cons ⟨2, 0⟩ (Stream'.cons ⟨-1, Errno.eagain⟩
        (Stream'.const ⟨3, 0⟩))) 1).call 3 (.write 5 5) = .inr (5, st') ∧
      TransmitLaw (Stream'.cons ⟨2, 0⟩ (Stream'.cons ⟨-1, Errno.eagain⟩
        (Stream'.const ⟨3, 0⟩))) [1, 2, 3, 4, 5] (5, st') := by
  obtain ⟨st', hret, hlog⟩ : ∃ st', (trackedHook (Stream'.cons ⟨2, 0⟩
      (Stream'.cons ⟨-1, Errno.eagain⟩ (Stream'.const ⟨3, 0⟩))) 1).call 3
        (.write 5 ([1, 2, 3, 4, 5] : List UInt8).length) = .inr (5, st') ∧
      st'.log = [.native (.transfer .write 5 0 5) 2,
        .waited [⟨5, pollOut ||| pollErr ||| pollHup⟩] 1 false 1,
        .native (.transfer .write 5 2 3) (-1),
        .waited [⟨5, pollOut ||| pollErr ||| pollHup⟩] 1 false 1,
        .native (.transfer .write 5 2 3) 3] := ⟨_, rfl, rfl⟩
  refine ⟨st', hret, (transmit_law_iff (Or.inl rfl) rfl rfl (fun _ => rfl) rfl hret ?_).mpr
    (by simp)⟩
  intro f fd offset length ret hmem
  simp only [hlog, List.mem_cons, reduceCtorEq, IoObs.native.injEq, NativeCall.transfer.injEq,
    List.not_mem_nil, or_false, false_or] at hmem
  omega

/-- A `send` of no bytes, to which the native function answers `EAGAIN`, surfaces it. -/
theorem transmit_empty_surfaces :
    ∃ st', (trackedHook (Stream'.const ⟨-1, Errno.eagain⟩) 1).call 1 (.send 5 0) =
        .inr (-1, st') ∧ st'.errno = Errno.eagain ∧
      ¬ TransmitLaw (Stream'.const ⟨-1, Errno.eagain⟩) [] (-1, st') := by
  obtain ⟨st', hret, herrno, hlog⟩ : ∃ st', (trackedHook (Stream'.const ⟨-1, Errno.eagain⟩)
      1).call 1 (.send 5 0) = .inr (-1, st') ∧ st'.errno = Errno.eagain ∧
      st'.log = [.native (.transfer .send 5 0 0) (-1)] := ⟨_, rfl, rfl, rfl⟩
  refine ⟨st', hret, herrno, ?_⟩
  intro hlaw
  have hshort := hlaw.short (show (-1 : Int) < 0 by decide)
  dsimp only at hshort
  rw [hlog] at hshort
  rcases hshort with ⟨call, a, hcall, ha⟩ | ⟨before, o, after, hsplit, hexpired, -⟩
  · obtain ⟨-, rfl⟩ := Prod.mk.inj (Option.some.inj hcall)
    exact absurd ha (by decide)
  · have hmem : o ∈ [IoObs.native (.transfer .send 5 0 0) (-1)] := by simp [hsplit]
    rw [List.mem_singleton.mp hmem] at hexpired
    simp [IoObs.expired] at hexpired

end Libcr
