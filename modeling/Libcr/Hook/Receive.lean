import Libcr.Hook.Turns

/-!
# The result of `read` and `recv`

Every turn of the loop waits once and asks the native function once, for the whole
buffer. The loop goes on while the native function answers `EAGAIN` and leaves with
the first other answer. A count of bytes and the end of the file are passed on; any
other failure is turned into the result 0, and a deadline that has expired ends
nothing.
-/

namespace Libcr

/-- Bytes are stored in a buffer from an offset on. -/
def fill (buf : List UInt8) (offset : Nat) (bytes : List UInt8) : List UInt8 :=
  buf.take offset ++ bytes ++ buf.drop (offset + bytes.length)

/-- The buffer of the caller after the native calls of a log, where `data` are the bytes
that each of them delivers. -/
def received : Stream' (List UInt8) → List IoObs → List UInt8 → List UInt8
  | _, [], buf => buf
  | data, .native (.transfer _ _ offset _) _ :: rest, buf =>
      received data.tail rest (fill buf offset.toNat data.head)
  | data, .native _ _ :: rest, buf => received data.tail rest buf
  | data, .waited .. :: rest, buf => received data rest buf

/-- A wait of the log has found the deadline expired before any byte was moved. -/
def ExpiredFirst (log : List IoObs) : Prop :=
  ∃ before o after, log = before ++ o :: after ∧ o.expired = true ∧ transferred before = 0

/-- What a `read` or `recv` call should return, where `natives` are the answers of the
native function and `r` is the result and the state after the call. -/
structure ReceiveLaw (natives : Stream' NativeAnswer) (r : Int × HookSys) : Prop where
  delivered : ∀ k > 0, r.1 = k ↔ ∃ call a, lastTransfer natives r.2.log = some (call, a) ∧
    a.ret = k
  bytes : ∀ data : Stream' (List UInt8), (∀ i, (data.get i).length = (natives.get i).ret.toNat) →
    ∀ buf, 0 < r.1 → (received data r.2.log buf).take r.1.toNat =
      data.get ((answered natives r.2.log).length - 1)
  eof : r.1 = 0 ↔ ∃ call a, lastTransfer natives r.2.log = some (call, a) ∧ a.ret = 0
  failed : r.1 = -1 ↔ (∃ call a, lastTransfer natives r.2.log = some (call, a) ∧ a.Failed) ∨
    ExpiredFirst r.2.log
  surfaced : r.1 < 0 → r.2.errno ≠ Errno.eagain

/-- The answers that a `read` or `recv` call gets before the native function has something
for it: no wait finds the deadline expired, and the native function does not fail but for
`EAGAIN`. -/
def HookSys.Undisturbed (st : HookSys) (timeout : Int) : Prop :=
  ∀ i, (∀ j < i, (st.natives.get j).Blocked) →
    st.expiredAt timeout i = false ∧ ¬ (st.natives.get i).Failed

section Turns

variable {st : HookSys} {f : Transfer} {fd : Fd} {nbyte : Nat} {timeout : Int}

/-- The `i`-th turn of the loop, as the log shows it. -/
def HookSys.receiveAt (st : HookSys) (f : Transfer) (fd : Fd) (nbyte : Nat) (timeout : Int)
    (i : Nat) : List IoObs :=
  [st.waitAt [⟨fd, pollIn ||| pollErr ||| pollHup⟩] timeout i,
    .native (.transfer f fd 0 nbyte) (st.natives.get i).ret]

/-- The call has made `i` turns. -/
structure HookSys.Received (st : HookSys) (f : Transfer) (fd : Fd) (nbyte : Nat)
    (timeout : Int) (i : Nat) (u : HookSys) : Prop where
  waited : st.Waited timeout i u
  natives : u.natives = st.natives.drop i
  log : u.log = st.log ++ (List.range i).flatMap (st.receiveAt f fd nbyte timeout)

/-- Where the loop is after some turns. -/
def HookSys.Receiving (st : HookSys) (f : Transfer) (fd : Fd) (nbyte : Nat) (timeout : Int) :
    Outcome → Prop
  | .inl p => p.n = 0 ∧ ∃ i, (∀ j < i, (st.natives.get j).Blocked) ∧
      st.Received f fd nbyte timeout i p.st
  | .inr r => ∃ k, (∀ j < k, (st.natives.get j).Blocked) ∧ ¬ (st.natives.get k).Blocked ∧
      st.Received f fd nbyte timeout (k + 1) r.2 ∧ r.1 = max (st.natives.get k).ret 0

/-- A turn goes on after `EAGAIN` and leaves the loop after any other answer. -/
theorem HookSys.Receiving.turn (hmark : st.task.Unmarked) (hpos : 0 < nbyte) {p : Progress}
    (h : st.Receiving f fd nbyte timeout (.inl p)) :
    st.Receiving f fd nbyte timeout (receiveTurn f fd nbyte timeout p) := by
  obtain ⟨hn, i, hblocked, hwaited, hnatives, hlog⟩ := h
  obtain ⟨u, hready, hwaited', hnatives', hlog'⟩ :=
    hwaited.waitIoReady hmark fd (pollIn ||| pollErr ||| pollHup)
  unfold receiveTurn
  rw [hready, hn]
  dsimp only
  obtain ⟨hret, herrno, hrest⟩ :=
    native_of_drop (hnatives'.trans hnatives) (.transfer f fd 0 (nbyte - 0))
  have hafter : st.Received f fd nbyte timeout (i + 1)
      (u.native (.transfer f fd 0 (nbyte - 0))).2 := by
    refine ⟨hwaited'.native _, hrest, ?_⟩
    rw [native_log, hret, hlog', hlog, List.range_succ]
    simp [receiveAt]
  rw [if_neg (by decide), hret]
  split
  · next hend =>
      refine ⟨i, hblocked, ?_, hafter, ?_⟩
      · rintro ⟨hneg, hagain⟩
        rcases hend with ⟨-, hother⟩ | hzero
        · exact hother ((herrno hneg).trans hagain)
        · omega
      · rcases hend with ⟨hneg, -⟩ | hzero <;> omega
  · next hgo =>
      by_cases hneg : (st.natives.get i).ret < 0
      · -- The native function has answered `EAGAIN`.
        have hagain : (st.natives.get i).errno = Errno.eagain := by
          by_contra hother
          exact hgo (Or.inl ⟨hneg, by rwa [herrno hneg]⟩)
        rw [if_pos hneg, if_pos ⟨Int.le_refl 0, by omega⟩]
        refine ⟨rfl, i + 1, ?_, hafter⟩
        intro j hj
        rcases Nat.lt_succ_iff_lt_or_eq.mp hj with hj | rfl
        · exact hblocked j hj
        · exact ⟨hneg, hagain⟩
      · have hne : (st.natives.get i).ret ≠ 0 := fun hzero => hgo (Or.inr hzero)
        rw [if_neg hneg, if_neg (by omega)]
        exact ⟨i, hblocked, fun hb => hneg hb.1, hafter, by omega⟩

/-- A `read` or `recv` call on a tracked descriptor that has returned has done so with the
first answer of the native function that was not `EAGAIN`. -/
theorem HookSys.receive_returned {fuel : Nat} {lp : RpcHook} {r : Int × HookSys}
    (hhook : st.isEnableSysHook = true) (htracked : st.getByFd fd = some lp)
    (hmark : st.task.Unmarked) (hpos : 0 < nbyte)
    (hret : st.receive f fd nbyte fuel = .inr r) :
    st.Receiving f fd nbyte lp.readTimeout.ms (.inr r) := by
  have hloop : st.receive f fd nbyte fuel =
      loop (receiveTurn f fd nbyte lp.readTimeout.ms) fuel ⟨0, 0, st⟩ := by
    simp [receive, hhook, htracked]
  rw [← hret, hloop]
  refine loop_invariant (fun p hp => hp.turn hmark hpos) fuel ?_
  exact ⟨rfl, 0, by simp, st.waited_zero _, rfl, by simp⟩

/-- Every turn makes one native call. -/
theorem answered_receiveAt (st : HookSys) (f : Transfer) (fd : Fd) (nbyte : Nat)
    (timeout : Int) (i : Nat) :
    (answered st.natives ((List.range i).flatMap (st.receiveAt f fd nbyte timeout))).length =
      i := by
  induction i with
  | zero => rfl
  | succ i ih =>
      rw [List.range_succ, List.flatMap_append, answered_append, List.length_append, ih]
      rfl

/-- The log of a call that has left the loop ends with the answer it has left with. -/
theorem HookSys.Received.ends {k : Nat} {u : HookSys}
    (h : st.Received f fd nbyte timeout (k + 1) u) (hlog : st.log = []) :
    u.log = (List.range k).flatMap (st.receiveAt f fd nbyte timeout) ++
        [st.waitAt [⟨fd, pollIn ||| pollErr ||| pollHup⟩] timeout k] ++
        [.native (.transfer f fd 0 nbyte) (st.natives.get k).ret] ∧
      lastTransfer st.natives u.log = some (.transfer f fd 0 nbyte, st.natives.get k) ∧
      (answered st.natives u.log).length = k + 1 := by
  have hturns := h.log
  rw [hlog, List.nil_append] at hturns
  have hsplit : u.log = (List.range k).flatMap (st.receiveAt f fd nbyte timeout) ++
      [st.waitAt [⟨fd, pollIn ||| pollErr ||| pollHup⟩] timeout k] ++
      [.native (.transfer f fd 0 nbyte) (st.natives.get k).ret] := by
    rw [hturns, List.range_succ, List.flatMap_append]
    simp [receiveAt]
  refine ⟨hsplit, ?_, by rw [hturns, answered_receiveAt]⟩
  rw [hsplit, lastTransfer_concat, answered_append, List.length_append, answered_receiveAt]
  rfl

/-- No byte is moved while the native function answers `EAGAIN`. -/
theorem transferred_receiveAt {i : Nat} (hblocked : ∀ j < i, (st.natives.get j).Blocked) :
    transferred ((List.range i).flatMap (st.receiveAt f fd nbyte timeout)) = 0 := by
  induction i with
  | zero => rfl
  | succ i ih =>
      have hneg := (hblocked i (Nat.lt_succ_self i)).1
      have hrest := ih fun j hj => hblocked j (Nat.lt_succ_of_lt hj)
      unfold transferred at hrest ⊢
      rw [List.range_succ, List.flatMap_append, List.map_append, List.sum_append, hrest]
      simp only [List.flatMap_singleton, HookSys.receiveAt, HookSys.waitAt, List.map_cons,
        List.map_nil, List.sum_cons, List.sum_nil]
      omega

/-- The buffer is left alone while the native function answers `EAGAIN`. -/
theorem received_receiveAt {data : Stream' (List UInt8)}
    (hdata : ∀ i, (data.get i).length = (st.natives.get i).ret.toNat) {i : Nat}
    (hblocked : ∀ j < i, (st.natives.get j).Blocked) (log : List IoObs) (buf : List UInt8) :
    received data ((List.range i).flatMap (st.receiveAt f fd nbyte timeout) ++ log) buf =
      received (data.drop i) log buf := by
  induction i generalizing log with
  | zero => rfl
  | succ i ih =>
      have hneg := (hblocked i (Nat.lt_succ_self i)).1
      have hempty : data.get i = [] := by
        rw [← List.length_eq_zero_iff, hdata]
        omega
      rw [List.range_succ, List.flatMap_append, List.append_assoc,
        ih fun j hj => hblocked j (Nat.lt_succ_of_lt hj)]
      simp [HookSys.receiveAt, HookSys.waitAt, received, hempty, fill]

/-- A wait of the turns before has found the deadline expired. -/
theorem expiredFirst_receiveAt {k : Nat} (hblocked : ∀ j < k, (st.natives.get j).Blocked) :
    ExpiredFirst ((List.range (k + 1)).flatMap (st.receiveAt f fd nbyte timeout)) ↔
      ∃ i ≤ k, st.expiredAt timeout i = true := by
  constructor
  · rintro ⟨before, o, after, hlog, hexpired, -⟩
    have hmem : o ∈ (List.range (k + 1)).flatMap (st.receiveAt f fd nbyte timeout) := by
      simp [hlog]
    obtain ⟨i, hi, ho⟩ := List.mem_flatMap.mp hmem
    refine ⟨i, Nat.le_of_lt_succ (List.mem_range.mp hi), ?_⟩
    simp only [HookSys.receiveAt, List.mem_cons, List.not_mem_nil, or_false] at ho
    rcases ho with rfl | rfl
    · exact hexpired
    · simp [IoObs.expired] at hexpired
  · rintro ⟨i, hi, hexpired⟩
    obtain ⟨d, rfl⟩ := Nat.exists_eq_add_of_le hi
    have hrange : List.range (i + d + 1) = List.range i ++ i :: (List.range d).map (i + 1 + ·) := by
      rw [Nat.add_assoc, List.range_add, Nat.add_comm d 1, List.range_add]
      simp [Nat.add_assoc, Function.comp_def]
    rw [hrange, List.flatMap_append, List.flatMap_cons]
    exact ⟨_, _, _, rfl, hexpired, transferred_receiveAt fun j hj => hblocked j (by omega)⟩

end Turns

/-- A `read` or `recv` call on a tracked descriptor returns what it should if nothing
disturbs it, and only then. -/
theorem receive_law_iff {st : HookSys} {call : IoCall} {fd : Fd} {nbyte fuel : Nat}
    {lp : RpcHook} {r : Int × HookSys}
    (hcall : call = .read fd nbyte ∨ call = .recv fd nbyte)
    (hhook : st.isEnableSysHook = true) (htracked : st.getByFd fd = some lp)
    (hmark : st.task.Unmarked) (hlog : st.log = []) (hpos : 0 < nbyte)
    (hret : st.call fuel call = .inr r) :
    ReceiveLaw st.natives r ↔ st.Undisturbed lp.readTimeout.ms := by
  obtain ⟨f, hf⟩ : ∃ f, st.receive f fd nbyte fuel = .inr r := by
    rcases hcall with rfl | rfl
    · exact ⟨.read, hret⟩
    · exact ⟨.recv, hret⟩
  obtain ⟨k, hblocked, hnot, hreceived, hresult⟩ :=
    HookSys.receive_returned hhook htracked hmark hpos hf
  obtain ⟨hsplit, hlast, hlength⟩ := hreceived.ends hlog
  have hexpired : ExpiredFirst r.2.log ↔
      ∃ i ≤ k, st.expiredAt lp.readTimeout.ms i = true := by
    rw [hreceived.log, hlog]
    exact expiredFirst_receiveAt hblocked
  constructor
  · intro hlaw i hi
    have hik : i ≤ k := by
      by_contra hlt
      exact hnot (hi k (by omega))
    have hno : ¬ r.1 = -1 := by omega
    refine ⟨?_, ?_⟩
    · by_contra hexp
      rw [Bool.not_eq_false] at hexp
      exact hno (hlaw.failed.mpr (Or.inr (hexpired.mpr ⟨i, hik, hexp⟩)))
    · intro hfailed
      have heq : i = k := by
        by_contra hne
        exact hfailed.2 (hblocked i (by omega)).2
      subst heq
      exact hno (hlaw.failed.mpr (Or.inl ⟨_, _, hlast, hfailed⟩))
  · intro hcalm
    have hnonneg : 0 ≤ (st.natives.get k).ret := by
      by_contra hneg
      refine (hcalm k hblocked).2 ⟨by omega, fun hagain => hnot ⟨by omega, hagain⟩⟩
    have hk : r.1 = (st.natives.get k).ret := hresult.trans (Int.max_eq_left hnonneg)
    have hvalue : ∀ v : Int, (∃ call a, lastTransfer st.natives r.2.log = some (call, a) ∧
        a.ret = v) ↔ r.1 = v := by
      intro v
      rw [hlast, hk]
      simp
    refine ⟨fun v _ => (hvalue v).symm, ?_, (hvalue 0).symm, ?_, ?_⟩
    · intro data hdata buf hpositive
      have hlen : r.1.toNat = (data.get k).length := by rw [hdata, hk]
      rw [hlength, hsplit, List.append_assoc, received_receiveAt hdata hblocked]
      simp [HookSys.waitAt, received, fill, hlen]
    · refine iff_of_false (by omega) ?_
      rintro (⟨call, a, hcall, hfailed⟩ | hexp)
      · rw [hlast] at hcall
        obtain ⟨-, rfl⟩ := Prod.mk.inj (Option.some.inj hcall)
        exact (hcalm k hblocked).2 hfailed
      · obtain ⟨i, hi, hexp⟩ := hexpired.mp hexp
        rw [(hcalm i fun j hj => hblocked j (by omega)).1] at hexp
        simp at hexp
    · intro hneg
      omega

/-- The native function answers `EAGAIN` once and then delivers seven bytes. -/
theorem receive_law_retried :
    ∃ st', (trackedHook (Stream'.cons ⟨-1, Errno.eagain⟩ (Stream'.const ⟨7, 0⟩)) 0).call 2
        (.read 5 10) = .inr (7, st') ∧
      ReceiveLaw (Stream'.cons ⟨-1, Errno.eagain⟩ (Stream'.const ⟨7, 0⟩)) (7, st') := by
  obtain ⟨st', hret⟩ : ∃ st', (trackedHook (Stream'.cons ⟨-1, Errno.eagain⟩
      (Stream'.const ⟨7, 0⟩)) 0).call 2 (.read 5 10) = .inr (7, st') := ⟨_, rfl⟩
  refine ⟨st', hret, (receive_law_iff (Or.inl rfl) rfl rfl (fun _ => rfl) rfl (by decide)
    hret).mpr ?_⟩
  intro i hi
  refine ⟨HookSys.expiredAt_of_unlimited rfl _ i, ?_⟩
  cases i with
  | zero => decide
  | succ i => exact fun hfailed => absurd (show (7 : Int) < 0 from hfailed.1) (by decide)

/-- The connection is reset: the native function fails with `ECONNRESET`, and `read` returns
0 as it does at the end of the file. -/
theorem receive_error_as_eof :
    ∃ st', (trackedHook (Stream'.const ⟨-1, 104⟩) 1).call 1 (.read 5 10) = .inr (0, st') ∧
      st'.errno = 104 ∧ ¬ ReceiveLaw (Stream'.const ⟨-1, 104⟩) (0, st') := by
  refine ⟨_, rfl, rfl, ?_⟩
  intro hlaw
  have hfailed := hlaw.failed.mpr (Or.inl ⟨_, _, rfl, by decide⟩)
  exact absurd hfailed (by decide)

end Libcr
