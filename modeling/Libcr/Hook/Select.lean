import Mathlib.Data.List.FinRange
import Mathlib.Data.List.Induction
import Libcr.Hook.Turns

/-!
# `select` over `poll`

`select` with hooks on asks the native function first, without waiting. When nothing is
ready it counts the members of the three sets, allocates as many entries for `poll`, fills
them in, and translates the entries back after the wait. Both loops over the sets go
wrong: every member of the `i`-th set is stored in the `i`-th entry, and the answer is read
from the events that were asked for.
-/

namespace Libcr

/-- `FD_SETSIZE`. -/
def kFdSetsize : Nat := 1024

/-- `fd_set`. -/
abbrev FdSet := BitVec kFdSetsize

/-- `FD_ISSET`. -/
def FdSet.isSet (set : FdSet) (fd : Nat) : Bool := set.getLsbD fd

/-- `FD_SET`. -/
def FdSet.set (set : FdSet) (fd : Nat) : FdSet := set ||| BitVec.twoPow kFdSetsize fd

/-- The array `fds` of `select`: the pointers `readfds`, `writefds` and `exceptfds`. -/
abbrev FdSets := Fin 3 → Option FdSet

/-- The array `poll_events` of `select`. -/
def pollEvents : Fin 3 → BitVec 16
  | 0 => pollIn
  | 1 => pollOut
  | 2 => 0

/-- The array `poll_fds` of `select`, and the indices of the stores into it. A store behind
the end of the array does not change it. -/
structure PollArray where
  entries : List PollFd
  stores : List Nat

namespace PollArray

/-- `calloc(total, sizeof(struct pollfd))`. -/
def calloc (total : Nat) : PollArray := ⟨List.replicate total ⟨0, 0⟩, []⟩

/-- A store of a descriptor and its events. -/
def store (a : PollArray) (i : Nat) (p : PollFd) : PollArray :=
  ⟨a.entries.set i p, a.stores ++ [i]⟩

end PollArray

/-- The loop of `select` that computes `total`. -/
def selectTotal (nfds : Nat) (fds : FdSets) : Nat :=
  (List.finRange 3).foldl (fun total i =>
    match fds i with
    | none => total
    | some set =>
        (List.range nfds).foldl (fun total fd => if set.isSet fd then total + 1 else total)
          total) 0

/-- The loop of `select` that fills the array. -/
def selectFill (nfds : Nat) (fds : FdSets) : PollArray :=
  (List.finRange 3).foldl (fun a i =>
    match fds i with
    | none => a
    | some set =>
        (List.range nfds).foldl (fun a fd =>
          if set.isSet fd then a.store i ⟨fd, pollEvents i⟩ else a) a)
    (PollArray.calloc (selectTotal nfds fds))

/-- `FD_SET` on one of the sets, unless the pointer is null, and the count. -/
def selectAdd (i : Fin 3) (fd : Fd) (r : Int × FdSets) : Int × FdSets :=
  match r.2 i with
  | none => r
  | some set => (r.1 + 1, Function.update r.2 i (some (set.set fd.toNat)))

/-- The body of the loop of `select` that translates the entries back. -/
def selectTurn (r : Int × FdSets) (pfd : PollFd) : Int × FdSets :=
  let r := if pfd.events &&& pollIn ≠ 0 then selectAdd 0 pfd.fd r else r
  let r := if pfd.events &&& pollOut ≠ 0 then selectAdd 1 pfd.fd r else r
  if pfd.events &&& ~~~ (pollIn ||| pollOut) ≠ 0 then selectAdd 2 pfd.fd r else r

/-- The loop of `select` that translates the entries back. -/
def selectAnswer (entries : List PollFd) (fds : FdSets) : Int × FdSets :=
  entries.foldl selectTurn (0, fds)

/-- `select` after the wait has answered `n`: the result and the sets. When `n` is not
positive the function is left before `ret` is initialised. -/
def selectFinish (entries : List PollFd) (fds : FdSets) (n : Int) : Option Int × FdSets :=
  if n ≤ 0 then (none, fds)
  else
    let r := selectAnswer entries fds
    (some r.1, r.2)

/-- `select`. `left` is what the native function leaves in the sets it is given. -/
def HookSys.select (st : HookSys) (nfds : Nat) (fds : FdSets) (timeout : Option Timeval)
    (left : Fin 3 → FdSet) : (Option Int × FdSets) × HookSys :=
  let r := st.native (.select nfds)
  let copied : FdSets := fun i => (fds i).map fun _ => left i
  if ¬ st.isEnableSysHook then ((some r.1, copied), r.2)
  else
    match timeout with
    | none => ((some r.1, copied), r.2)
    | some tv =>
        if r.1 ≠ 0 then ((some r.1, copied), r.2)
        else
          let entries := (selectFill nfds fds).entries
          let p := r.2.pollInner entries tv.ms
          (selectFinish entries fds p.1, p.2)

section Translation

variable {nfds : Nat} {fds : FdSets}

/-- The descriptors below `nfds` in one of the sets. -/
def members (nfds : Nat) (fds : FdSets) (i : Fin 3) : List Nat :=
  match fds i with
  | none => []
  | some set => (List.range nfds).filter set.isSet

/-- What `select` should ask `poll` for: one entry for each member of each set. -/
def requests (nfds : Nat) (fds : FdSets) : List PollFd :=
  (List.finRange 3).flatMap fun i =>
    (members nfds fds i).map fun fd : Nat => ⟨fd, pollEvents i⟩

/-- The array is the request, in any order, and every store is inside it. -/
structure Translated (nfds : Nat) (fds : FdSets) (a : PollArray) : Prop where
  entries : a.entries.Perm (requests nfds fds)
  stores : ∀ i ∈ a.stores, i < a.entries.length

/-- At most one descriptor is to be read and one to be written, at most one but descriptor 0
is watched for exceptions, and the number of all of them exceeds the number of every set
that is not empty. -/
structure Aligned (nfds : Nat) (fds : FdSets) : Prop where
  read : (members nfds fds 0).length ≤ 1
  write : (members nfds fds 1).length ≤ 1
  except : ((members nfds fds 2).filter fun fd => fd ≠ 0).length ≤ 1
  fits : ∀ i, members nfds fds i ≠ [] → i < (requests nfds fds).length

/-- The members of a set are stored in the entry of the set, one over the other. -/
def PollArray.storeAll (a : PollArray) (i : Fin 3) (fds : List Nat) : PollArray where
  entries :=
    match fds.getLast? with
    | none => a.entries
    | some fd => a.entries.set i ⟨fd, pollEvents i⟩
  stores := a.stores ++ List.replicate fds.length i.val

theorem foldl_store (i : Fin 3) (l : List Nat) (p : Nat → Bool) (a : PollArray) :
    l.foldl (fun a fd => if p fd then a.store i ⟨fd, pollEvents i⟩ else a) a =
      a.storeAll i (l.filter p) := by
  induction l using List.reverseRecOn generalizing a with
  | nil => simp [PollArray.storeAll]
  | append_singleton l fd ih =>
      rw [List.foldl_concat, ih, List.filter_append]
      cases hp : p fd with
      | false => simp [hp]
      | true =>
          simp only [hp, if_true, List.filter_cons_of_pos, List.filter_nil, PollArray.store,
            PollArray.storeAll, List.getLast?_concat, List.length_append, List.length_singleton,
            List.replicate_succ', List.append_assoc, PollArray.mk.injEq, and_true]
          cases (l.filter p).getLast? with
          | none => rfl
          | some last => exact List.set_set ..

theorem foldl_count (l : List Nat) (p : Nat → Bool) (total : Nat) :
    l.foldl (fun total fd => if p fd then total + 1 else total) total =
      total + (l.filter p).length := by
  induction l generalizing total with
  | nil => rfl
  | cons fd rest ih =>
      cases hp : p fd with
      | false => simp [hp, ih]
      | true => simp [hp, ih, Nat.add_assoc, Nat.add_comm 1]

/-- `total` is the number of the entries that should be asked for. -/
theorem selectTotal_eq (nfds : Nat) (fds : FdSets) :
    selectTotal nfds fds = (requests nfds fds).length := by
  have hbody : ∀ total i, (match fds i with
      | none => total
      | some set => (List.range nfds).foldl
          (fun total fd => if set.isSet fd then total + 1 else total) total) =
        total + (members nfds fds i).length := by
    intro total i
    unfold members
    cases fds i with
    | none => rfl
    | some set => exact foldl_count ..
  have hfin : List.finRange 3 = [0, 1, 2] := rfl
  simp only [selectTotal, hbody, requests, hfin, List.foldl_cons, List.foldl_nil,
    List.flatMap_cons, List.flatMap_nil, List.length_append, List.length_map, List.append_nil]
  omega

/-- The array that `select` fills. -/
theorem selectFill_eq (nfds : Nat) (fds : FdSets) :
    selectFill nfds fds = (((PollArray.calloc (requests nfds fds).length).storeAll 0
      (members nfds fds 0)).storeAll 1 (members nfds fds 1)).storeAll 2
        (members nfds fds 2) := by
  have hbody : ∀ a i, (match fds i with
      | none => a
      | some set => (List.range nfds).foldl (fun a fd =>
          if set.isSet fd then a.store i ⟨fd, pollEvents i⟩ else a) a) =
        PollArray.storeAll a i (members nfds fds i) := by
    intro a i
    unfold members
    cases fds i with
    | none => simp [PollArray.storeAll]
    | some set => exact foldl_store ..
  have hfin : List.finRange 3 = [0, 1, 2] := rfl
  simp only [selectFill, hbody, hfin, List.foldl_cons, List.foldl_nil, selectTotal_eq]

theorem requests_eq (nfds : Nat) (fds : FdSets) :
    requests nfds fds =
      (members nfds fds 0).map (fun fd : Nat => ⟨fd, pollIn⟩) ++
        ((members nfds fds 1).map (fun fd : Nat => ⟨fd, pollOut⟩) ++
          (members nfds fds 2).map (fun fd : Nat => ⟨fd, 0⟩)) := by
  have hfin : List.finRange 3 = [0, 1, 2] := rfl
  simp [requests, hfin, pollEvents]

@[simp] theorem length_storeAll (a : PollArray) (i : Fin 3) (fds : List Nat) :
    (a.storeAll i fds).entries.length = a.entries.length := by
  unfold PollArray.storeAll
  dsimp only
  split <;> simp

@[simp] theorem length_selectFill (nfds : Nat) (fds : FdSets) :
    (selectFill nfds fds).entries.length = (requests nfds fds).length := by
  simp [selectFill_eq, PollArray.calloc]

/-- The stores are made at the numbers of the sets that are not empty. -/
theorem mem_stores {k : Nat} :
    k ∈ (selectFill nfds fds).stores ↔ ∃ i : Fin 3, members nfds fds i ≠ [] ∧ k = i := by
  simp only [selectFill_eq, PollArray.storeAll, PollArray.calloc, List.nil_append,
    List.mem_append, List.mem_replicate, Fin.exists_fin_succ]
  simp [List.length_eq_zero_iff]
  tauto

/-- Storing over an entry adds at most the new one to a count. -/
theorem countP_set_le (q : PollFd → Bool) (l : List PollFd) (k : Nat) (x : PollFd) :
    (l.set k x).countP q ≤ l.countP q + if k < l.length ∧ q x then 1 else 0 := by
  induction l generalizing k with
  | nil => simp
  | cons y rest ih =>
      cases k with
      | zero =>
          rw [List.set_cons_zero, List.countP_cons, List.countP_cons]
          simp
      | succ k =>
          have hrest := ih k
          simp only [List.set_cons_succ, List.countP_cons, List.length_cons,
            Nat.add_lt_add_iff_right]
          omega

theorem countP_storeAll_le {q : PollFd → Bool} {i : Fin 3} {b : Prop} [Decidable b]
    (hq : ∀ fd : Nat, q ⟨fd, pollEvents i⟩ = true → b) (a : PollArray) (fds : List Nat) :
    (a.storeAll i fds).entries.countP q ≤ a.entries.countP q +
      if b ∧ fds ≠ [] ∧ i < a.entries.length then 1 else 0 := by
  unfold PollArray.storeAll
  dsimp only
  split
  · exact Nat.le_add_right _ _
  · next fd hlast =>
      have hne : fds ≠ [] := by
        rintro rfl
        simp at hlast
      refine Nat.le_trans (countP_set_le q _ _ _) (Nat.add_le_add_left ?_ _)
      split
      · next h => rw [if_pos ⟨hq fd h.2, hne, h.1⟩]
      · exact Nat.zero_le _

/-- At most one entry of the array has a property that only the entry of one set can
have. -/
theorem countP_selectFill_le {q : PollFd → Bool} {k : Fin 3} (hzero : q ⟨0, 0⟩ = false)
    (hq : ∀ i, ∀ fd : Nat, q ⟨fd, pollEvents i⟩ = true → i = k) (nfds : Nat) (fds : FdSets) :
    (selectFill nfds fds).entries.countP q ≤
      if members nfds fds k ≠ [] ∧ k < (requests nfds fds).length then 1 else 0 := by
  have hcalloc : (PollArray.calloc (requests nfds fds).length).entries.countP q = 0 := by
    rw [List.countP_eq_zero]
    intro p hp
    rw [List.eq_of_mem_replicate hp, hzero]
    simp
  have h₀ := countP_storeAll_le (hq 0) (PollArray.calloc (requests nfds fds).length)
    (members nfds fds 0)
  have h₁ := countP_storeAll_le (hq 1) ((PollArray.calloc (requests nfds fds).length).storeAll 0
    (members nfds fds 0)) (members nfds fds 1)
  have h₂ := countP_storeAll_le (hq 2) (((PollArray.calloc (requests nfds fds).length).storeAll 0
    (members nfds fds 0)).storeAll 1 (members nfds fds 1)) (members nfds fds 2)
  rw [selectFill_eq]
  simp only [length_storeAll, PollArray.calloc, List.length_replicate] at h₀ h₁ h₂ hcalloc ⊢
  obtain rfl | rfl | rfl : k = 0 ∨ k = 1 ∨ k = 2 := by omega
  all_goals
    simp only [Fin.isValue, Fin.reduceEq, true_and, false_and, if_false] at h₀ h₁ h₂ ⊢
    omega

theorem pairwise_members (nfds : Nat) (fds : FdSets) (i : Fin 3) :
    (members nfds fds i).Pairwise (· < ·) := by
  unfold members
  split
  · exact List.Pairwise.nil
  · exact List.pairwise_lt_range.filter _

/-- A set with at most one member but 0. -/
theorem members_cases {l : List Nat} (hsorted : l.Pairwise (· < ·))
    (hfew : (l.filter fun fd => fd ≠ 0).length ≤ 1) :
    l = [] ∨ (∃ a, l = [a]) ∨ ∃ a, l = [0, a] := by
  match l with
  | [] => exact Or.inl rfl
  | [a] => exact Or.inr (Or.inl ⟨a, rfl⟩)
  | a :: b :: rest =>
      simp only [List.pairwise_cons, List.mem_cons, forall_eq_or_imp] at hsorted
      obtain ⟨⟨hab, -⟩, hb, -⟩ := hsorted
      have hbpos : b ≠ 0 := by omega
      cases rest with
      | nil =>
          have ha : a = 0 := by
            by_contra ha
            simp [ha, hbpos] at hfew
          exact Or.inr (Or.inr ⟨b, by rw [ha]⟩)
      | cons c rest =>
          have hc := hb c List.mem_cons_self
          have hcpos : c ≠ 0 := by omega
          rw [List.filter_cons] at hfew
          split at hfew <;> simp [hbpos, hcpos] at hfew

theorem eq_nil_or_singleton {l : List Nat} (h : l.length ≤ 1) : l = [] ∨ ∃ a, l = [a] := by
  rcases Nat.le_one_iff_eq_zero_or_eq_one.mp h with h | h
  · exact Or.inl (List.length_eq_zero_iff.mp h)
  · exact Or.inr (List.length_eq_one_iff.mp h)

/-- Where the sets are aligned the array is the request. -/
theorem Aligned.perm (h : Aligned nfds fds) :
    (selectFill nfds fds).entries.Perm (requests nfds fds) := by
  obtain ⟨hread, hwrite, hexcept, hfits⟩ := h
  have hfits₁ := hfits 1
  have hfits₂ := hfits 2
  rw [selectFill_eq, requests_eq]
  rw [requests_eq] at hfits₁ hfits₂
  rcases members_cases (pairwise_members nfds fds 2) hexcept with hE | ⟨c, hE⟩ | ⟨c, hE⟩ <;>
    rcases eq_nil_or_singleton hread with hR | ⟨a, hR⟩ <;>
    rcases eq_nil_or_singleton hwrite with hW | ⟨b, hW⟩ <;>
    simp only [hE, hR, hW] at hfits₁ hfits₂ ⊢
  · exact .refl _
  · simp at hfits₁
  · exact .refl _
  · exact .refl _
  · simp at hfits₂
  · simp at hfits₂
  · simp at hfits₂
  · exact .refl _
  · simp at hfits₂
  -- The zero entry that nothing is stored in stands for descriptor 0.
  · exact .swap _ _ _
  · exact .refl _
  · exact .cons _ (.cons _ (.swap _ _ _))

/-- The members of a set are counted among the requests. -/
theorem countP_members_le (q : PollFd → Bool) (nfds : Nat) (fds : FdSets) (k : Fin 3) :
    (members nfds fds k).countP (fun fd : Nat => q ⟨fd, pollEvents k⟩) ≤
      (requests nfds fds).countP q := by
  have hmem : (members nfds fds k).map (fun fd : Nat => (⟨fd, pollEvents k⟩ : PollFd)) ∈
      (List.finRange 3).map fun i =>
        (members nfds fds i).map fun fd : Nat => (⟨fd, pollEvents i⟩ : PollFd) :=
    List.mem_map.mpr ⟨k, List.mem_finRange k, rfl⟩
  have hle := (List.sublist_flatten_of_mem hmem).countP_le (p := q)
  rwa [List.countP_map] at hle

/-- The array that `select` passes to `poll` is the request exactly when the sets are
aligned. -/
theorem translated_iff (nfds : Nat) (fds : FdSets) :
    Translated nfds fds (selectFill nfds fds) ↔ Aligned nfds fds := by
  constructor
  · rintro ⟨hperm, hstores⟩
    have hcount : ∀ (q : PollFd → Bool) (k : Fin 3), q ⟨0, 0⟩ = false →
        (∀ i, ∀ fd : Nat, q ⟨fd, pollEvents i⟩ = true → pollEvents i = pollEvents k) →
        (members nfds fds k).countP (fun fd : Nat => q ⟨fd, pollEvents k⟩) ≤ 1 := by
      intro q k hzero hq
      have hevents : ∀ i k, pollEvents i = pollEvents k → i = k := by decide
      have hle := countP_selectFill_le hzero (fun i fd h => hevents i k (hq i fd h)) nfds fds
      rw [hperm.countP_eq] at hle
      have hmembers := countP_members_le q nfds fds k
      split at hle <;> omega
    refine ⟨?_, ?_, ?_, ?_⟩
    · simpa using hcount (fun p => p.events = pollEvents 0) 0 (by decide) (by simp)
    · simpa using hcount (fun p => p.events = pollEvents 1) 1 (by decide) (by simp)
    · have hle := hcount (fun p => p.events = pollEvents 2 ∧ p.fd ≠ 0) 2 (by decide)
        fun i fd h => (of_decide_eq_true h).1
      simpa [List.countP_eq_length_filter] using hle
    · intro i hi
      have hlt := hstores i (mem_stores.mpr ⟨i, hi, rfl⟩)
      rwa [length_selectFill] at hlt
  · intro h
    refine ⟨h.perm, ?_⟩
    intro k hk
    obtain ⟨i, hi, rfl⟩ := mem_stores.mp hk
    rw [length_selectFill]
    exact h.fits i hi

end Translation

/-- `select` when the native function finds nothing ready. -/
theorem HookSys.select_eq {st : HookSys} (hhook : st.isEnableSysHook = true)
    (hnative : st.natives.head.ret = 0) (nfds : Nat) (fds : FdSets) (tv : Timeval)
    (left : Fin 3 → FdSet) :
    ∃ expired n u, st.select nfds fds (some tv) left =
        (selectFinish (selectFill nfds fds).entries fds n, u) ∧
      u.log = st.log ++ [.native (.select nfds) 0,
        .waited (selectFill nfds fds).entries tv.ms expired n] := by
  have hret : (st.native (.select nfds)).1 = 0 := hnative
  obtain ⟨-, hlog, -⟩ :=
    (st.native (.select nfds)).2.pollInner_spec (selectFill nfds fds).entries tv.ms
  rw [native_log, hret, List.append_assoc] at hlog
  refine ⟨_, _, _, ?_, hlog⟩
  unfold select
  simp [hhook, hret]

/-- When `select` goes on to `poll`, it asks for what it should exactly when the sets are
aligned. -/
theorem select_request_iff {st : HookSys} (hhook : st.isEnableSysHook = true)
    (hnative : st.natives.head.ret = 0) (nfds : Nat) (fds : FdSets) (tv : Timeval)
    (left : Fin 3 → FdSet) :
    ∃ a expired n, (st.select nfds fds (some tv) left).2.log = st.log ++
        [.native (.select nfds) 0, .waited a.entries tv.ms expired n] ∧
      a = selectFill nfds fds ∧ (Translated nfds fds a ↔ Aligned nfds fds) := by
  obtain ⟨expired, n, u, hselect, hlog⟩ := HookSys.select_eq hhook hnative nfds fds tv left
  refine ⟨selectFill nfds fds, expired, n, ?_, rfl, translated_iff nfds fds⟩
  rw [hselect]
  exact hlog

/-- Sets of descriptors to be read and to be written. -/
def plainSets (read write : List Nat) : FdSets
  | 0 => some (read.foldl FdSet.set 0)
  | 1 => some (write.foldl FdSet.set 0)
  | 2 => none

/-- One descriptor to be read and one to be written. -/
theorem select_request_pair :
    ∃ a expired n, ((trackedHook (Stream'.const ⟨0, 0⟩) 1).select 6 (plainSets [3] [4])
        (some ⟨1, 0⟩) fun _ => 0).2.log =
        [.native (.select 6) 0, .waited a.entries 1000 expired n] ∧
      a.entries = [⟨3, pollIn⟩, ⟨4, pollOut⟩] ∧ Translated 6 (plainSets [3] [4]) a := by
  obtain ⟨a, expired, n, hlog, ha, hiff⟩ := select_request_iff
    (show (trackedHook (Stream'.const ⟨0, 0⟩) 1).isEnableSysHook = true from rfl) rfl 6
    (plainSets [3] [4]) ⟨1, 0⟩ fun _ => 0
  have hms : Timeval.ms ⟨1, 0⟩ = 1000 := by decide
  rw [hms] at hlog
  refine ⟨a, expired, n, hlog, ?_, hiff.mpr ⟨?_, ?_, ?_, ?_⟩⟩
  · rw [ha]
    decide +kernel
  all_goals decide +kernel

/-- Two descriptors to be read: both are stored in the first entry, so that the first of them
is lost and the second entry asks for nothing. -/
theorem select_request_lost :
    (selectFill 6 (plainSets [3, 5] [])).entries = [⟨5, pollIn⟩, ⟨0, 0⟩] ∧
      ¬ Translated 6 (plainSets [3, 5] []) (selectFill 6 (plainSets [3, 5] [])) := by
  have hentries : (selectFill 6 (plainSets [3, 5] [])).entries =
      [⟨5, pollIn⟩, ⟨0, 0⟩] := by decide +kernel
  refine ⟨hentries, ?_⟩
  rintro ⟨hperm, -⟩
  have hmem : (⟨3, pollIn⟩ : PollFd) ∈ requests 6 (plainSets [3, 5] []) := by decide +kernel
  rw [← hperm.mem_iff, hentries] at hmem
  simp [pollIn] at hmem

end Libcr
