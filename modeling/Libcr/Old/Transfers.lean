import Libcr.Old.Turns

/-!
# What `Accept`, `Recv` and `Send` return

The log shows for every call when it was entered, the bytes each native call moved for it,
and its result. Over every run the result is bound to the bytes: `Send` returns its length
after moving all of it and -1 before; `Recv` returns what it has read, and it returns less
than its length only if the last part was smaller than what remained after it. Both give -1
on an error even if bytes have been moved, and both return 0 at once for a length that is
negative as `ssize_t`.
-/

namespace Libcr

namespace Old

/-- A call as the log shows it: what was asked for, the bytes moved for it so far, and those
of the last native call. -/
structure Transfer where
  kind : IoKind
  len : BitVec 64
  moved : Nat
  last : Nat

/-- The call the coroutine `p`, or `main` for 0, is in, after one more entry. -/
def transferStep (p : CoPtr) (cur : Option Transfer) : Obs → Option Transfer
  | .entered q kind len => if q = p then some ⟨kind, len, 0, 0⟩ else cur
  | .moved q n =>
      if q = p then cur.map fun tr => { tr with moved := tr.moved + n, last := n } else cur
  | .returned q _ _ _ => if q = p then none else cur
  | _ => cur

/-- The call the coroutine `p` is in. -/
def transfer (p : CoPtr) (log : List Obs) : Option Transfer := log.foldl (transferStep p) none

/-- The number of bytes a length asks for. From 2^63 on it is negative as `ssize_t`, and
nothing is moved. -/
def due (len : BitVec 64) : Nat := len.toInt.toNat

theorem lt_due_iff {n : Nat} {len : BitVec 64} : n < due len ↔ (n : Int) < len.toInt :=
  Int.lt_toNat

theorem natCast_due {len : BitVec 64} (h : 0 < due len) : (due len : Int) = len.toInt :=
  Int.toNat_of_nonneg (lt_due_iff.mp h).le

/-- A length below 2^63 asks for what it says. -/
theorem due_eq_toNat {len : BitVec 64} (h : 0 < due len) : due len = len.toNat := by
  rw [lt_due_iff, BitVec.toInt_eq_toNat_cond] at h
  rw [due, BitVec.toInt_eq_toNat_cond]
  split
  · exact Int.toNat_natCast _
  · next hlarge =>
      rw [if_neg hlarge] at h
      have hlt := len.isLt
      omega

/-- The values a call may return. -/
def Transfer.Returns (tr : Transfer) (value : Int) : Prop :=
  match tr.kind with
  | .accept => tr.moved = 0 ∧ -1 ≤ value
  | .recv => value = -1 ∧ (tr.moved = 0 ∨ tr.moved < due tr.len) ∨
      value = tr.moved ∧
        (tr.moved = due tr.len ∨ 0 < tr.last ∧ tr.moved + tr.last < due tr.len)
  | .send => value = -1 ∧ (tr.moved = 0 ∨ tr.moved < due tr.len) ∨
      value = due tr.len ∧ tr.moved = due tr.len

/-- A call that goes on has something left to move. `Recv` goes on after a part only if the
part was at least as large as what remains. -/
structure Transfer.Open (tr : Transfer) : Prop where
  short : tr.moved = 0 ∨ tr.moved < due tr.len
  accept : tr.kind = .accept → tr.moved = 0
  recv : tr.kind = .recv → tr.moved = 0 ∨ due tr.len ≤ tr.moved + tr.last

/-- The call of the log is that of the coroutine. -/
structure Transfer.Agrees (tr : Transfer) (call : IoCall) : Prop where
  kind : tr.kind = call.kind
  len : tr.len = call.len
  moved : tr.moved = call.ret

/-- The coroutine is in the call of the log, or in none. -/
def Tracks : Option Transfer → Option IoCall → Prop
  | none, none => True
  | some tr, some call => tr.Agrees call ∧ tr.Open
  | _, _ => False

/-- A result of the coroutine `p` belongs to the call it is in. -/
def Obs.Allowed (p : CoPtr) (cur : Option Transfer) : Obs → Prop
  | .returned q kind len value =>
      q = p → ∃ tr, cur = some tr ∧ tr.kind = kind ∧ tr.len = len ∧ tr.Returns value
  | _ => True

/-- So does every result among the entries. -/
def Lawful (p : CoPtr) : Option Transfer → List Obs → Prop
  | _, [] => True
  | cur, o :: os => o.Allowed p cur ∧ Lawful p (transferStep p cur o) os

/-- The coroutine whose call an entry is about. -/
def Obs.caller? : Obs → Option CoPtr
  | .entered q _ _ => some q
  | .moved q _ => some q
  | .returned q _ _ _ => some q
  | _ => none

section Logs

variable {p : CoPtr} {cur : Option Transfer} {l os : List Obs}

theorem lawful_append :
    Lawful p cur (l ++ os) ↔ Lawful p cur l ∧ Lawful p (l.foldl (transferStep p) cur) os := by
  induction l generalizing cur with
  | nil => simp [Lawful]
  | cons o rest ih => simp only [List.cons_append, Lawful, List.foldl_cons, ih, and_assoc]

theorem transferStep_other {o : Obs} (h : o.caller? ≠ some p) : transferStep p cur o = cur := by
  cases o with
  | entered q kind len => exact if_neg fun hq => h (congrArg some hq)
  | moved q n => exact if_neg fun hq => h (congrArg some hq)
  | returned q kind len value => exact if_neg fun hq => h (congrArg some hq)
  | _ => rfl

theorem foldl_transferStep_other (h : ∀ o ∈ os, o.caller? ≠ some p) :
    os.foldl (transferStep p) cur = cur := by
  induction os with
  | nil => rfl
  | cons o rest ih =>
      rw [List.forall_mem_cons] at h
      rw [List.foldl_cons, transferStep_other h.1, ih h.2]

theorem lawful_of_allowed (h : ∀ o ∈ os, ∀ cur, o.Allowed p cur) : Lawful p cur os := by
  induction os generalizing cur with
  | nil => trivial
  | cons o rest ih =>
      rw [List.forall_mem_cons] at h
      exact ⟨h.1 cur, ih h.2⟩

theorem lawful_other (h : ∀ o ∈ os, o.caller? ≠ some p) : Lawful p cur os := by
  apply lawful_of_allowed
  intro o ho cur
  cases o with
  | returned q kind len value => exact fun hq => absurd (congrArg some hq) (h _ ho)
  | _ => trivial

theorem transfer_append (p : CoPtr) (l os : List Obs) :
    transfer p (l ++ os) = os.foldl (transferStep p) (transfer p l) :=
  List.foldl_append

end Logs

/-- The log and the coroutines agree about the calls that go on, and the results in the log
belong to calls. -/
structure Tracked (s : Sched) : Prop where
  calls : ∀ p co, s.coroutines p = some co → Tracks (transfer p s.log) co.pc.call?
  fresh : ∀ p, s.nextCo ≤ p → transfer p s.log = none
  results : ∀ p, Lawful p none s.log

theorem tracked_new : Tracked Sched.new where
  calls := by
    intro p co hco
    cases hco
  fresh := fun _ _ => rfl
  results := fun _ => trivial

section Moves

variable {s t : Sched} {p : CoPtr} {os : List Obs}

/-- Nothing about calls is shown, and no coroutine enters or leaves a call. -/
theorem Tracked.idle (h : Tracked s) (hlog : t.log = s.log ++ os)
    (hos : ∀ o ∈ os, o.caller? = none) (hnext : s.nextCo ≤ t.nextCo)
    (hcos : ∀ q co, t.coroutines q = some co → (s.nextCo ≤ q ∧ co.pc.call? = none) ∨
      ∃ co₀, s.coroutines q = some co₀ ∧ co₀.pc.call? = co.pc.call?) : Tracked t := by
  have hother : ∀ q, ∀ o ∈ os, o.caller? ≠ some q := by
    intro q o ho
    rw [hos o ho]
    exact (Option.some_ne_none q).symm
  have htransfer : ∀ q, transfer q t.log = transfer q s.log := by
    intro q
    rw [hlog, transfer_append, foldl_transferStep_other (hother q)]
  constructor
  · intro q co hco
    rw [htransfer]
    rcases hcos q co hco with ⟨hnew, hcall⟩ | ⟨co₀, hco₀, hcall⟩
    · rw [h.fresh q hnew, hcall]
      trivial
    · rw [← hcall]
      exact h.calls q co₀ hco₀
  · intro q hq
    rw [htransfer]
    exact h.fresh q (hnext.trans hq)
  · intro q
    rw [hlog, lawful_append]
    exact ⟨h.results q, lawful_other (hother q)⟩

/-- One coroutine moves in its call, and only its call is shown. -/
theorem Tracked.move (h : Tracked s) (hlog : t.log = s.log ++ os) (hnext : t.nextCo = s.nextCo)
    (hp : p < s.nextCo) (hos : ∀ o ∈ os, ∀ q, o.caller? = some q → q = p)
    (hcos : ∀ q, q ≠ p → t.coroutines q = s.coroutines q)
    (hlawful : Lawful p (transfer p s.log) os)
    (htracks : ∀ co, t.coroutines p = some co →
      Tracks (os.foldl (transferStep p) (transfer p s.log)) co.pc.call?) : Tracked t := by
  have hother : ∀ q, q ≠ p → ∀ o ∈ os, o.caller? ≠ some q :=
    fun q hq o ho hcaller => hq (hos o ho q hcaller)
  have htransfer : ∀ q, q ≠ p → transfer q t.log = transfer q s.log := by
    intro q hq
    rw [hlog, transfer_append, foldl_transferStep_other (hother q hq)]
  constructor
  · intro q co hco
    by_cases hq : q = p
    · subst hq
      rw [hlog, transfer_append]
      exact htracks co hco
    · rw [htransfer q hq]
      rw [hcos q hq] at hco
      exact h.calls q co hco
  · intro q hq
    rw [hnext] at hq
    rw [htransfer q (hp.trans_le hq).ne']
    exact h.fresh q hq
  · intro q
    rw [hlog, lawful_append]
    refine ⟨h.results q, ?_⟩
    by_cases hq : q = p
    · subst hq
      exact hlawful
    · exact lawful_other (hother q hq)

end Moves

/-- The call goes on or returns as it may. -/
def IoNext.Lawful (tr : Transfer) : IoNext → Prop
  | .wait call => tr.Agrees call ∧ tr.Open
  | .loop call => tr.Agrees call ∧ tr.Open
  | .back call value => tr.Agrees call ∧ tr.Returns value

section Calls

variable {tr : Transfer} {call : IoCall}

theorem IoCall.head_eq (call : IoCall) :
    call.head = if call.kind = .accept ∨ call.ret < due call.len then .loop call
      else .back call call.ret := by
  rw [IoCall.head]
  simp only [lt_due_iff]

/-- In the loop something is left to move. -/
theorem IoCall.lt_due_of_loop (h : call.head = .loop call) (hkind : call.kind ≠ .accept) :
    call.ret < due call.len := by
  rw [call.head_eq] at h
  split at h
  · next hloop => exact hloop.resolve_left hkind
  · cases h

/-- What a native function moves in the loop is asked for. -/
theorem IoCall.add_le_due (h : call.head = .loop call) (hkind : call.kind ≠ .accept) {n : Nat}
    (hfits : (Answer.done n).fits call = true) : call.ret + n ≤ due call.len := by
  have hle : call.kind = .accept ∨ call.ret + n ≤ call.len.toNat := of_decide_eq_true hfits
  have hdue := due_eq_toNat (Nat.zero_lt_of_lt (IoCall.lt_due_of_loop h hkind))
  rw [hdue]
  exact hle.resolve_left hkind

/-- The head of the loop returns only what is complete. -/
theorem IoCall.head_lawful (hagrees : tr.Agrees call)
    (hopen : call.kind = .accept ∨ call.ret < due call.len → tr.Open)
    (hdone : ¬ (call.kind = .accept ∨ call.ret < due call.len) → tr.moved = due tr.len) :
    call.head.Lawful tr := by
  rw [call.head_eq]
  split
  · next hloop => exact ⟨hagrees, hopen hloop⟩
  · next hend =>
      refine ⟨hagrees, ?_⟩
      have hmoved := hdone hend
      rw [not_or] at hend
      have hkind : tr.kind ≠ .accept := hagrees.kind ▸ hend.1
      rw [← hagrees.moved]
      unfold Transfer.Returns
      cases hk : tr.kind with
      | accept => exact absurd hk hkind
      | recv => exact Or.inr ⟨rfl, Or.inl hmoved⟩
      | send => exact Or.inr ⟨congrArg _ hmoved, hmoved⟩

/-- The head of the loop when nothing new has been moved. -/
theorem IoCall.head_lawful_of_open (hagrees : tr.Agrees call) (hopen : tr.Open) :
    call.head.Lawful tr := by
  refine IoCall.head_lawful hagrees (fun _ => hopen) fun hend => ?_
  rw [not_or, ← hagrees.moved, ← hagrees.len] at hend
  rcases hopen.short with hzero | hlt
  · exact hzero.trans (Nat.eq_zero_of_le_zero (hzero ▸ Nat.le_of_not_lt hend.2)).symm
  · exact absurd hlt hend.2

/-- An error is returned as -1. -/
theorem Transfer.Open.returns_error (hopen : tr.Open) : tr.Returns (-1) := by
  unfold Transfer.Returns
  cases hk : tr.kind with
  | accept => exact ⟨hopen.accept hk, le_rfl⟩
  | recv => exact Or.inl ⟨rfl, hopen.short⟩
  | send => exact Or.inl ⟨rfl, hopen.short⟩

/-- A call that has just been entered. -/
theorem Transfer.open_new (kind : IoKind) (len : BitVec 64) : (Transfer.mk kind len 0 0).Open :=
  ⟨Or.inl rfl, fun _ => rfl, fun _ => Or.inl rfl⟩

/-- The call after `n` bytes. -/
def Transfer.more (tr : Transfer) (n : Nat) : Transfer :=
  { tr with moved := tr.moved + n, last := n }

theorem Transfer.Agrees.more (h : tr.Agrees call) (n : Nat) :
    (tr.more n).Agrees { call with ret := call.ret + n } :=
  ⟨h.kind, h.len, congrArg (· + n) h.moved⟩

/-- `Recv` after a part. -/
theorem IoCall.lawful_after_recv {n : Nat} (hagrees : tr.Agrees call) (hkind : call.kind = .recv)
    (hlast : tr.last = n) (hn : n ≠ 0) (hpos : 0 < call.ret) (hle : call.ret ≤ due call.len) :
    (if (n : Int) < call.len.toInt - call.ret then IoNext.back call call.ret
      else call.head).Lawful tr := by
  have hk : tr.kind = .recv := hagrees.kind.trans hkind
  have hmoved := hagrees.moved
  have hlen : due tr.len = due call.len := congrArg due hagrees.len
  have hdue := natCast_due (hpos.trans_le hle)
  split
  · next hbreak =>
      refine ⟨hagrees, ?_⟩
      rw [Transfer.Returns, hk]
      exact Or.inr ⟨congrArg _ hmoved.symm, Or.inr ⟨by omega, by omega⟩⟩
  · next hfull =>
      apply IoCall.head_lawful hagrees
      · intro hloop
        have hlt : call.ret < due call.len := hloop.resolve_left (by simp [hkind])
        exact ⟨Or.inr (by omega), fun haccept => by simp [hk] at haccept,
          fun _ => Or.inr (by omega)⟩
      · intro hend
        rw [not_or] at hend
        omega

/-- `Send` after a part. -/
theorem IoCall.lawful_after_send (hagrees : tr.Agrees call) (hkind : call.kind = .send)
    (hpos : 0 < call.ret) (hle : call.ret ≤ due call.len) :
    (if (call.ret : Int) = call.len.toInt then IoNext.back call call.ret
      else call.head).Lawful tr := by
  have hk : tr.kind = .send := hagrees.kind.trans hkind
  have hmoved := hagrees.moved
  have hlen : due tr.len = due call.len := congrArg due hagrees.len
  have hdue := natCast_due (hpos.trans_le hle)
  split
  · next hall =>
      refine ⟨hagrees, ?_⟩
      rw [Transfer.Returns, hk]
      exact Or.inr ⟨by rw [hlen, hdue, hall], by omega⟩
  · next hpart =>
      apply IoCall.head_lawful hagrees
      · intro _
        exact ⟨Or.inr (by omega), fun haccept => by simp [hk] at haccept,
          fun hrecv => by simp [hk] at hrecv⟩
      · intro hend
        rw [not_or] at hend
        omega

/-- What a turn of the loop shows is what its call goes on with. -/
theorem IoCall.turn_lawful (hagrees : tr.Agrees call) (hopen : tr.Open)
    (hloop : call.head = .loop call) {ans : Answer} (hfits : ans.fits call = true) :
    ∃ tr', (call.turn ans).1.foldl (transferStep call.coro) (some tr) = some tr' ∧
      (call.turn ans).2.Lawful tr' := by
  cases ans with
  | again => exact ⟨tr, rfl, ⟨hagrees.kind, hagrees.len, hagrees.moved⟩, hopen⟩
  | intr => exact ⟨tr, rfl, IoCall.head_lawful_of_open hagrees hopen⟩
  | error => exact ⟨tr, rfl, hagrees, hopen.returns_error⟩
  | done n =>
      have hmore := hagrees.more n
      have hshown : [Obs.moved call.coro n].foldl (transferStep call.coro) (some tr) =
          some (tr.more n) := by
        simp [transferStep, Transfer.more]
      unfold IoCall.turn
      dsimp only
      split
      · next hkind =>
          have hk : tr.kind = .accept := hagrees.kind.trans hkind
          refine ⟨tr, rfl, hagrees, ?_⟩
          rw [Transfer.Returns, hk]
          exact ⟨hopen.accept hk, by omega⟩
      · next hkind =>
          split
          · exact ⟨tr, rfl, hagrees, hopen.returns_error⟩
          · next hn =>
              have hle := IoCall.add_le_due hloop (by simp [hkind]) hfits
              have hpos : 0 < call.ret + n := Nat.add_pos_right _ (Nat.pos_of_ne_zero hn)
              exact ⟨tr.more n, hshown,
                IoCall.lawful_after_recv hmore hkind rfl hn hpos hle⟩
      · next hkind =>
          split
          · exact ⟨tr, rfl, hagrees, hopen.returns_error⟩
          · next hn =>
              have hle := IoCall.add_le_due hloop (by simp [hkind]) hfits
              have hpos : 0 < call.ret + n := Nat.add_pos_right _ (Nat.pos_of_ne_zero hn)
              exact ⟨tr.more n, hshown,
                IoCall.lawful_after_send hmore hkind hpos hle⟩

end Calls

section Steps

variable {s t u : Sched} {p : CoPtr} {r : Resumer} {co : Coroutine}

/-- The coroutine `p` goes on in its call after it has shown the entries `os`. -/
theorem Tracked.gone (h : Tracked s) {os : List Obs} {tr : Transfer} {next : IoNext}
    (hp : p < s.nextCo) (hlog : u.log = s.log ++ os) (hnext : u.nextCo = s.nextCo)
    (hcos : ∀ q, q ≠ p → u.coroutines q = s.coroutines q)
    (hos : ∀ o ∈ os, ∀ q, o.caller? = some q → q = p)
    (hlawful : Lawful p (transfer p s.log) os)
    (htr : os.foldl (transferStep p) (transfer p s.log) = some tr) (hgo : next.Lawful tr) :
    Tracked (u.gone p r co next) := by
  have hothers : ∀ co', ∀ q, q ≠ p →
      Function.update u.coroutines p (some co') q = s.coroutines q := by
    intro co' q hq
    rw [Function.update_of_ne hq]
    exact hcos q hq
  have hself : ∀ {co' co₁ : Coroutine},
      Function.update u.coroutines p (some co') p = some co₁ → co' = co₁ := by
    intro co' co₁ hco₁
    rw [Function.update_self] at hco₁
    exact Option.some.inj hco₁
  cases next with
  | wait call =>
      have hlog' : u.log ++ [.left p] = s.log ++ (os ++ [.left p]) := by
        rw [hlog, List.append_assoc]
      refine h.move hlog' hnext hp ?_ (hothers _) ?_ fun co₁ hco₁ => ?_
      · rw [List.forall_mem_append]
        exact ⟨hos, by simp [Obs.caller?]⟩
      · rw [lawful_append]
        exact ⟨hlawful, trivial, trivial⟩
      · rw [List.foldl_append, htr, ← hself hco₁]
        exact hgo
  | loop call =>
      refine h.move hlog hnext hp hos (hothers _) hlawful fun co₁ hco₁ => ?_
      rw [htr, ← hself hco₁]
      exact hgo
  | back call value =>
      let result : Obs := .returned p call.kind call.len value
      have hlog' : u.log ++ [result] = s.log ++ (os ++ [result]) := by
        rw [hlog, List.append_assoc]
      refine h.move hlog' hnext hp ?_ (hothers _) ?_ fun co₁ hco₁ => ?_
      · rw [List.forall_mem_append]
        refine ⟨hos, fun o ho q hq => ?_⟩
        rw [List.mem_singleton.mp ho] at hq
        exact (Option.some.inj hq).symm
      · rw [lawful_append, htr]
        exact ⟨hlawful, fun _ => ⟨tr, rfl, hgo.1.kind, hgo.1.len, hgo.2⟩, trivial⟩
      · rw [List.foldl_append, htr, ← hself hco₁]
        change Tracks (if p = p then none else some tr) none
        rw [if_pos rfl]
        trivial

theorem Tracked.of_call (h : Tracked s) {call : IoCall} (hco : s.coroutines p = some co)
    (hcall : co.pc.call? = some call) :
    ∃ tr, transfer p s.log = some tr ∧ tr.Agrees call ∧ tr.Open := by
  have htracks := h.calls p co hco
  rw [hcall] at htracks
  cases htr : transfer p s.log with
  | none =>
      rw [htr] at htracks
      exact htracks.elim
  | some tr =>
      rw [htr] at htracks
      exact ⟨tr, rfl, htracks⟩

/-- A step that leaves every coroutine in the call it is in, and one of them at most moves. -/
theorem call_update {co' : Coroutine} (hco : s.coroutines p = some co)
    (hcall : co.pc.call? = co'.pc.call?) {q : CoPtr} {co₁ : Coroutine}
    (hco₁ : Function.update s.coroutines p (some co') q = some co₁) :
    ∃ co₀, s.coroutines q = some co₀ ∧ co₀.pc.call? = co₁.pc.call? := by
  refine forall_update (P := fun q co₁ =>
    ∃ co₀, s.coroutines q = some co₀ ∧ co₀.pc.call? = co₁.pc.call?) ⟨co, hco, hcall⟩ ?_ q co₁ hco₁
  exact fun q co₁ _ hq => ⟨co₁, hq, rfl⟩

/-- Who calls a function is in no call. -/
theorem Inv.caller_cases (h : Inv s) (huser : s.inUser = true) :
    s.caller < s.nextCo ∧ ∀ co, s.coroutines s.caller = some co → co.pc = .user := by
  rcases h.user_cases huser with ⟨hctl, -⟩ | ⟨p, co, hctl, hco, -, hpc⟩
  · rw [Sched.caller, hctl]
    exact ⟨h.table.pos, fun co hco => absurd rfl (h.ne_zero hco)⟩
  · rw [Sched.caller, hctl]
    refine ⟨h.table.lt_of_live (s.idOf_eq hco), fun co₁ hco₁ => ?_⟩
    rw [← Option.some.inj (hco.symm.trans hco₁), hpc]

/-- What `Run` shows before it calls `Resume` is about no call. -/
theorem Resumes.caller? {a : Act} {os : List Obs} (hres : Resumes s a p r os) :
    ∀ o ∈ os, o.caller? = none := by
  cases hres with
  | run => simp [Obs.caller?]
  | user => simp

/-- A coroutine that is in no call is resumed. -/
theorem Tracked.resumed (h : Tracked s) {a : Act} {os os' : List Obs} {co' : Coroutine}
    (hres : Resumes s a p r os) (hco : s.coroutines p = some co)
    (hcos : t.coroutines = Function.update s.coroutines p (some co'))
    (hcall : co.pc.call? = co'.pc.call?) (hos' : ∀ o ∈ os', o.caller? = none)
    (hlog : t.log = s.log ++ (os ++ os')) (hnext : t.nextCo = s.nextCo) : Tracked t := by
  refine h.idle hlog ?_ hnext.ge fun q co₁ hco₁ => Or.inr ?_
  · rw [List.forall_mem_append]
    exact ⟨hres.caller?, hos'⟩
  · rw [hcos] at hco₁
    exact call_update hco hcall hco₁

theorem Tracked.step (h : Tracked s) (hinv : Inv s) {a : Act} (he : Effect s a (.ok t)) :
    Tracked t := by
  cases he with
  | @spawn arg fn id huser hid hlt =>
      refine h.idle rfl (by simp [Obs.caller?]) (Nat.le_succ _) fun q co hco => ?_
      change Function.update s.coroutines s.nextCo _ q = some co at hco
      by_cases hq : q = s.nextCo
      · subst hq
        rw [Function.update_self, Option.some.injEq] at hco
        subst hco
        exact Or.inl ⟨le_rfl, rfl⟩
      · rw [Function.update_of_ne hq] at hco
        exact Or.inr ⟨co, hco, rfl⟩
  | @yield p r co hctl hmain hco hpc =>
      have hos : ∀ o ∈ [Obs.left p], o.caller? = none := by simp [Obs.caller?]
      refine h.idle rfl hos le_rfl fun q co₁ hco₁ => Or.inr ?_
      refine call_update hco ?_ hco₁
      rw [hpc]
      rfl
  | status => exact h
  | @ioFailed coro co kind fd len ctl huser hrunning hco hfd hfail =>
      have hsame := s.equipped_same coro kind fd len
      obtain ⟨hlt, hidle⟩ := hinv.caller_cases huser
      have hlog' : (s.equipped coro kind fd len).1.log ++ [.returned s.caller kind len (-1)] =
          s.log ++ [.entered s.caller kind len, .returned s.caller kind len (-1)] := by
        rw [hsame.log, List.append_assoc]
        rfl
      refine h.move hlog' hsame.nextCo hlt (by simp [Obs.caller?])
        (fun q _ => congrFun hsame.coroutines q) ?_ fun co₁ hco₁ => ?_
      · refine ⟨trivial, fun _ => ⟨⟨kind, len, 0, 0⟩, if_pos rfl, rfl, rfl, ?_⟩, trivial⟩
        exact (Transfer.open_new kind len).returns_error
      · rw [hidle co₁ ((congrFun hsame.coroutines s.caller).symm.trans hco₁)]
        simp [transferStep, Pc.call?, Tracks]
  | @ioWait p r co kind fd len hctl hmain hco hpc hfd hnew =>
      have hsame := s.equipped_same p kind fd len
      have hgo : (IoNext.wait ⟨kind, p, fd, len, 0, 0⟩).Lawful ⟨kind, len, 0, 0⟩ :=
        ⟨⟨rfl, rfl, rfl⟩, Transfer.open_new kind len⟩
      have hadded : (s.added p kind fd len).log = s.log ++ [.entered p kind len] := by
        have hlog := hsame.log
        rw [Sched.caller, hctl] at hlog
        exact hlog
      exact h.gone (hinv.table.lt_of_live (s.idOf_eq hco)) hadded hsame.nextCo
        (fun q _ => congrFun hsame.coroutines q) (by simp [Obs.caller?]) ⟨trivial, trivial⟩
        (if_pos rfl) hgo
  | @turn p r co call ans hctl hmain hco hpc hfits =>
      have hcall : co.pc.call? = some call := by
        rw [hpc]
        rfl
      obtain ⟨tr, htr, hagrees, hopen⟩ := h.of_call hco hcall
      have hown := hinv.placed.own p co hco
      have hcoro : call.coro = p := hown.call call hcall
      obtain ⟨tr', htr', hgo⟩ := IoCall.turn_lawful hagrees hopen (hown.loop call hpc) hfits
      have hos : ∀ o ∈ (call.turn ans).1, ∃ n, o = .moved p n := hcoro ▸ call.turn_moved ans
      refine h.gone (hinv.table.lt_of_live (s.idOf_eq hco)) rfl rfl (fun _ _ => rfl) ?_ ?_
        (by rw [htr, ← hcoro]; exact htr') hgo
      · intro o ho q hq
        obtain ⟨n, rfl⟩ := hos o ho
        exact (Option.some.inj hq).symm
      · apply lawful_of_allowed
        intro o ho cur
        obtain ⟨n, rfl⟩ := hos o ho
        trivial
  | close =>
      exact h.idle (List.append_nil _).symm (by simp) le_rfl fun q co hco => Or.inr ⟨co, hco, rfl⟩
  | @ret p r co hctl hmain hco hpc =>
      exact h.idle rfl (by simp [Obs.caller?]) le_rfl
        fun q co₁ hco₁ => Or.inr ⟨co₁, (of_update_none hco₁).2, rfl⟩
  | run =>
      exact h.idle rfl (by simp [Obs.caller?]) le_rfl fun q co hco => Or.inr ⟨co, hco, rfl⟩
  | resumeNull => exact h
  | @idle a p r os co hres hco hexec =>
      exact h.idle rfl hres.caller? le_rfl fun q co hco => Or.inr ⟨co, hco, rfl⟩
  | @enter a p r os co hres hco hpc =>
      have hos : ∀ o ∈ [Obs.resumed p, .called p co.fn co.arg], o.caller? = none := by
        simp [Obs.caller?]
      refine h.resumed hres hco (Function.update_idem ..) (by rw [hpc]; rfl) hos ?_ rfl
      simp [Sched.emit, Sched.setCo, Sched.resumed]
  | @rejoin a p r os co hres hco hpc =>
      have hos : ∀ o ∈ [Obs.resumed p], o.caller? = none := by simp [Obs.caller?]
      refine h.resumed hres hco (Function.update_idem ..) (by rw [hpc]; rfl) hos ?_ rfl
      simp [Sched.emit, Sched.setCo, Sched.resumed]
  | @wake a p r os co call hres hco hpc =>
      have hcall : co.pc.call? = some call := by
        rw [hpc]
        rfl
      obtain ⟨tr, htr, hagrees, hopen⟩ := h.of_call hco hcall
      have hlog : s.log ++ os ++ [.resumed p] = s.log ++ (os ++ [.resumed p]) := by simp
      have hsilent : ∀ o ∈ os ++ [Obs.resumed p], o.caller? = none := by
        rw [List.forall_mem_append]
        exact ⟨hres.caller?, by simp [Obs.caller?]⟩
      have hother : ∀ o ∈ os ++ [Obs.resumed p], o.caller? ≠ some p := by
        intro o ho
        rw [hsilent o ho]
        exact (Option.some_ne_none p).symm
      refine h.gone (hinv.table.lt_of_live (s.idOf_eq hco)) hlog rfl
        (fun q hq => Function.update_of_ne hq ..) ?_ (lawful_other hother)
        ((foldl_transferStep_other hother).trans htr) (IoCall.head_lawful_of_open hagrees hopen)
      intro o ho q hq
      cases (hsilent o ho).symm.trans hq
  | network =>
      refine h.idle rfl ?_ le_rfl fun q co hco => Or.inr ⟨co, hco, rfl⟩
      simp [Obs.caller?]
  | forget =>
      exact h.idle (List.append_nil _).symm (by simp) le_rfl fun q co hco => Or.inr ⟨co, hco, rfl⟩

end Steps

theorem tracked_of_reached {s : Sched} (h : s.Reached) : Tracked s := by
  refine h.invariant tracked_new ?_
  intro u a v hu hl _ hstep
  have hinv : Inv u := Sched.Reached.inv hu
  obtain ⟨-, heffect | ⟨f, -, rfl⟩⟩ := hinv.step_cases hstep
  · exact hl.step hinv heffect
  · exact ⟨hl.calls, hl.fresh, hl.results⟩

end Old

end Libcr
