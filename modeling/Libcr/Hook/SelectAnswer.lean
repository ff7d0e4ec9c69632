import Libcr.Hook.Select

/-!
# What `select` answers

After a wait that has ended with an event, `select` should leave in each set the
descriptors that `poll` reports ready, and return their number. The code looks at the
events that were asked for instead, adds what is a member already, and never clears a
set. After any other wait it returns a variable that was not initialised.
-/

namespace Libcr

/-- The events that make a descriptor of each set ready. -/
def readiness : Fin 3 → BitVec 16
  | 0 => pollIn
  | 1 => pollOut
  | 2 => ~~~ (pollIn ||| pollOut)

/-- The number of members of a set. -/
def FdSet.card (set : FdSet) : Nat := (List.range kFdSetsize).countP set.isSet

/-- The number of members of the three sets. -/
def totalCard (fds : FdSets) : Nat :=
  ((List.finRange 3).map fun i => ((fds i).map FdSet.card).getD 0).sum

/-- The entry of the array for a member of a set reports it ready; `revents` is what `poll`
leaves in the entries. -/
def Ready (nfds : Nat) (fds : FdSets) (revents : List (BitVec 16)) (i : Fin 3) (fd : Nat) :
    Prop :=
  fd ∈ members nfds fds i ∧ ∃ k, (selectFill nfds fds).entries[k]? = some ⟨fd, pollEvents i⟩ ∧
    revents.getD k 0 &&& readiness i ≠ 0

/-- What `select` should leave and return when the wait has answered `n`. -/
structure SelectLaw (nfds : Nat) (fds : FdSets) (n : Int) (revents : List (BitVec 16))
    (r : Option Int × FdSets) : Prop where
  kept : ∀ i, (r.2 i).isSome = (fds i).isSome
  sets : 0 < n → ∀ i set, r.2 i = some set → ∀ fd, set.isSet fd ↔ Ready nfds fds revents i fd
  count : 0 < n → r.1 = some (totalCard r.2 : Int)
  timeout : n = 0 → r.1 = some 0 ∧ ∀ i set, r.2 i = some set → set = 0
  failed : n < 0 → r.1 = some (-1)

/-- There is at most one descriptor to be read, one to be written, which needs one to be
read, and none to be watched for exceptions. -/
structure OneEach (nfds : Nat) (fds : FdSets) : Prop where
  read : (members nfds fds 0).length ≤ 1
  write : (members nfds fds 1).length ≤ 1
  except : members nfds fds 2 = []
  order : members nfds fds 1 ≠ [] → members nfds fds 0 ≠ []

/-- The wait has ended with an event, the sets hold at most one descriptor each and lie
below `nfds`, and the first two entries report their descriptors ready. -/
structure AllReady (nfds : Nat) (fds : FdSets) (n : Int) (revents : List (BitVec 16)) :
    Prop extends OneEach nfds fds where
  event : 0 < n
  inside : ∀ i set, fds i = some set → ∀ fd, set.isSet fd → fd < nfds
  readable : members nfds fds 0 ≠ [] → revents.getD 0 0 &&& pollIn ≠ 0
  writable : members nfds fds 1 ≠ [] → revents.getD 1 0 &&& pollOut ≠ 0

section Answer

variable {nfds : Nat} {fds : FdSets}

theorem FdSet.set_of_isSet {set : FdSet} {fd : Nat} (h : set.isSet fd = true) :
    set.set fd = set := by
  unfold FdSet.isSet at h
  unfold FdSet.set
  apply BitVec.eq_of_getLsbD_eq
  intro i hi
  rw [BitVec.getLsbD_or, BitVec.getLsbD_twoPow]
  by_cases hfd : fd = i
  · subst hfd
    simp [h]
  · simp [hfd]

theorem FdSet.lt_kFdSetsize (set : FdSet) {fd : Nat} (h : set.isSet fd = true) :
    fd < kFdSetsize := by
  by_contra hge
  rw [FdSet.isSet, BitVec.getLsbD_of_ge set fd (by omega)] at h
  simp at h

theorem mem_members {i : Fin 3} {fd : Nat} :
    fd ∈ members nfds fds i ↔ fd < nfds ∧ ∃ set, fds i = some set ∧ set.isSet fd = true := by
  unfold members
  cases fds i with
  | none => simp
  | some set => simp

/-- An entry of the array is zero or that of a member. -/
theorem mem_entries {p : PollFd} (hp : p ∈ (selectFill nfds fds).entries) :
    p = ⟨0, 0⟩ ∨ ∃ i, ∃ fd : Nat, fd ∈ members nfds fds i ∧ p = ⟨fd, pollEvents i⟩ := by
  have hstep : ∀ {a : PollArray} {i : Fin 3}, p ∈ (a.storeAll i (members nfds fds i)).entries →
      p ∈ a.entries ∨ ∃ fd : Nat, fd ∈ members nfds fds i ∧ p = ⟨fd, pollEvents i⟩ := by
    intro a i h
    unfold PollArray.storeAll at h
    dsimp only at h
    split at h
    · exact Or.inl h
    · next fd hlast =>
        rcases List.mem_or_eq_of_mem_set h with h | rfl
        · exact Or.inl h
        · exact Or.inr ⟨fd, List.mem_of_getLast? hlast, rfl⟩
  rw [selectFill_eq] at hp
  rcases hstep hp with hp | hp
  · rcases hstep hp with hp | hp
    · rcases hstep hp with hp | hp
      · exact Or.inl (List.eq_of_mem_replicate hp)
      · exact Or.inr ⟨0, hp⟩
    · exact Or.inr ⟨1, hp⟩
  · exact Or.inr ⟨2, hp⟩

/-- A member that is added to its set leaves the set as it is. -/
theorem selectAdd_of_member {i : Fin 3} {fd : Nat} (h : fd ∈ members nfds fds i) (c : Int) :
    selectAdd i fd (c, fds) = (c + 1, fds) := by
  obtain ⟨-, set, hset, hfd⟩ := mem_members.mp h
  have hsame : Function.update fds i (some (set.set ((fd : Int).toNat))) = fds := by
    rw [Int.toNat_natCast, FdSet.set_of_isSet hfd, ← hset, Function.update_eq_self]
  unfold selectAdd
  dsimp only
  rw [hset]
  dsimp only
  rw [hsame]

theorem selectTurn_pollIn (r : Int × FdSets) (fd : Fd) :
    selectTurn r ⟨fd, pollIn⟩ = selectAdd 0 fd r := by
  simp [selectTurn, pollIn, pollOut]

theorem selectTurn_pollOut (r : Int × FdSets) (fd : Fd) :
    selectTurn r ⟨fd, pollOut⟩ = selectAdd 1 fd r := by
  simp [selectTurn, pollIn, pollOut]

theorem selectTurn_zero (r : Int × FdSets) (fd : Fd) : selectTurn r ⟨fd, 0⟩ = r := by
  simp [selectTurn]

/-- An entry is counted if it asks for input or output, and changes no set. -/
theorem selectTurn_of_entry {p : PollFd} (hp : p ∈ (selectFill nfds fds).entries) (c : Int) :
    selectTurn (c, fds) p = (c + (if p.events = pollIn then 1 else 0) +
      (if p.events = pollOut then 1 else 0), fds) := by
  rcases mem_entries hp with rfl | ⟨i, fd, hfd, rfl⟩
  · rw [selectTurn_zero, if_neg (by decide), if_neg (by decide), Int.add_zero, Int.add_zero]
  · obtain rfl | rfl | rfl : i = 0 ∨ i = 1 ∨ i = 2 := by omega
    · have hne : pollIn ≠ pollOut := by decide
      rw [show pollEvents 0 = pollIn from rfl, if_pos rfl, if_neg hne, selectTurn_pollIn,
        selectAdd_of_member hfd, Int.add_zero]
    · have hne : pollOut ≠ pollIn := by decide
      rw [show pollEvents 1 = pollOut from rfl, if_pos rfl, if_neg hne, selectTurn_pollOut,
        selectAdd_of_member hfd, Int.add_zero]
    · have hin : (0 : BitVec 16) ≠ pollIn := by decide
      have hout : (0 : BitVec 16) ≠ pollOut := by decide
      rw [show pollEvents 2 = 0 from rfl, selectTurn_zero, if_neg hin, if_neg hout,
        Int.add_zero, Int.add_zero]

/-- The answer leaves the sets as they are and counts the entries that ask for input or
output. -/
theorem selectAnswer_eq (nfds : Nat) (fds : FdSets) :
    selectAnswer (selectFill nfds fds).entries fds =
      (((selectFill nfds fds).entries.countP (fun p => p.events = pollIn) : Int) +
        (selectFill nfds fds).entries.countP (fun p => p.events = pollOut), fds) := by
  have hfold : ∀ (l : List PollFd) (c : Int), (∀ p ∈ l, p ∈ (selectFill nfds fds).entries) →
      l.foldl selectTurn (c, fds) = (c + l.countP (fun p => p.events = pollIn) +
        l.countP (fun p => p.events = pollOut), fds) := by
    intro l
    induction l with
    | nil => simp
    | cons p rest ih =>
        intro c hl
        rw [List.foldl_cons, selectTurn_of_entry (hl p List.mem_cons_self),
          ih _ fun x hx => hl x (List.mem_cons_of_mem p hx), List.countP_cons, List.countP_cons]
        simp only [decide_eq_true_eq, Prod.mk.injEq, and_true]
        split <;> split <;> omega
  have hzero := hfold _ 0 fun p hp => hp
  rwa [Int.zero_add] at hzero

/-- The members of a set that lies below two bounds are the same below both. -/
theorem filter_range_eq {p : Nat → Bool} {a b : Nat} (ha : ∀ fd, p fd → fd < a)
    (hb : ∀ fd, p fd → fd < b) : (List.range a).filter p = (List.range b).filter p := by
  have hle : ∀ {a b : Nat}, a ≤ b → (∀ fd, p fd → fd < a) →
      (List.range a).filter p = (List.range b).filter p := by
    intro a b hab ha
    obtain ⟨d, rfl⟩ := Nat.exists_eq_add_of_le hab
    have hrest : ((List.range d).map (a + ·)).filter p = [] := by
      rw [List.filter_eq_nil_iff]
      intro fd hfd hp
      obtain ⟨j, -, rfl⟩ := List.mem_map.mp hfd
      have := ha _ hp
      omega
    rw [List.range_add, List.filter_append, hrest, List.append_nil]
  rcases Nat.le_total a b with hab | hba
  · exact hle hab ha
  · exact (hle hba hb).symm

/-- The number of members of a set that lies below `nfds`. -/
theorem card_eq_length {i : Fin 3} {set : FdSet} (hset : fds i = some set)
    (hinside : ∀ fd, set.isSet fd → fd < nfds) :
    set.card = (members nfds fds i).length := by
  unfold FdSet.card members
  rw [hset, List.countP_eq_length_filter]
  dsimp only
  rw [filter_range_eq (fun fd => set.lt_kFdSetsize) hinside]

/-- The array is then the request in order. -/
theorem OneEach.entries (h : OneEach nfds fds) :
    (selectFill nfds fds).entries =
      (members nfds fds 0).map (fun fd : Nat => ⟨fd, pollIn⟩) ++
        (members nfds fds 1).map (fun fd : Nat => ⟨fd, pollOut⟩) := by
  obtain ⟨hread, hwrite, hexcept, horder⟩ := h
  rw [selectFill_eq, requests_eq, hexcept]
  rcases eq_nil_or_singleton hread with hR | ⟨a, hR⟩ <;>
    rcases eq_nil_or_singleton hwrite with hW | ⟨b, hW⟩ <;>
    simp only [hR, hW] at horder ⊢
  · rfl
  · simp at horder
  · rfl
  · rfl

/-- The entry of a member is then the one with the number of its set. -/
theorem OneEach.ready_iff (h : OneEach nfds fds) (revents : List (BitVec 16)) (i : Fin 3)
    (fd : Nat) : Ready nfds fds revents i fd ↔
      fd ∈ members nfds fds i ∧ revents.getD i 0 &&& readiness i ≠ 0 := by
  unfold Ready
  rw [h.entries]
  obtain ⟨hread, hwrite, hexcept, horder⟩ := h
  refine and_congr_right fun hfd => ?_
  have hne : pollOut ≠ pollIn := by decide
  have hentry : ∀ k : Nat, ((members nfds fds 0).map (fun fd : Nat => (⟨fd, pollIn⟩ : PollFd)) ++
      (members nfds fds 1).map (fun fd : Nat => (⟨fd, pollOut⟩ : PollFd)))[k]? =
        some ⟨fd, pollEvents i⟩ ↔ k = i := by
    intro k
    obtain rfl | rfl | rfl : i = 0 ∨ i = 1 ∨ i = 2 := by omega
    · obtain ⟨a, hR⟩ := (eq_nil_or_singleton hread).resolve_left (List.ne_nil_of_mem hfd)
      rw [hR] at hfd ⊢
      obtain rfl := List.mem_singleton.mp hfd
      rcases k with _ | k
      · simp [pollEvents]
      · simp [pollEvents, hne]
    · have hW := List.ne_nil_of_mem hfd
      obtain ⟨a, hR⟩ := (eq_nil_or_singleton hread).resolve_left (horder hW)
      obtain ⟨b, hW⟩ := (eq_nil_or_singleton hwrite).resolve_left hW
      rw [hW] at hfd
      obtain rfl := List.mem_singleton.mp hfd
      rw [hR, hW]
      rcases k with _ | _ | k
      · simp [pollEvents, hne.symm]
      · simp [pollEvents]
      · simp
    · rw [hexcept] at hfd
      simp at hfd
  constructor
  · rintro ⟨k, hk, hready⟩
    rwa [(hentry k).mp hk] at hready
  · intro hready
    exact ⟨i, (hentry i).mpr rfl, hready⟩

theorem totalCard_eq (hinside : ∀ i set, fds i = some set → ∀ fd, set.isSet fd → fd < nfds) :
    totalCard fds = (members nfds fds 0).length + (members nfds fds 1).length +
      (members nfds fds 2).length := by
  have hcard : ∀ i, ((fds i).map FdSet.card).getD 0 = (members nfds fds i).length := by
    intro i
    cases hset : fds i with
    | none => simp [members, hset]
    | some set =>
        rw [Option.map_some, Option.getD_some]
        exact card_eq_length hset (hinside i set hset)
  have hfin : List.finRange 3 = [0, 1, 2] := rfl
  simp only [totalCard, hcard, hfin, List.map_cons, List.map_nil, List.sum_cons, List.sum_nil]
  omega

/-- If the count is right the sets hold at most one descriptor each. -/
theorem oneEach_of_count
    (hcount : (selectFill nfds fds).entries.countP (fun p => p.events = pollIn) +
      (selectFill nfds fds).entries.countP (fun p => p.events = pollOut) =
        (members nfds fds 0).length + (members nfds fds 1).length +
          (members nfds fds 2).length) :
    OneEach nfds fds := by
  have hread : ∀ i, pollEvents i = pollIn → i = 0 := by decide
  have hwrite : ∀ i, pollEvents i = pollOut → i = 1 := by decide
  have hin := countP_selectFill_le (q := fun p => p.events = pollIn) (k := 0) (by decide)
    (fun i _ h => hread i (of_decide_eq_true h)) nfds fds
  have hout := countP_selectFill_le (q := fun p => p.events = pollOut) (k := 1) (by decide)
    (fun i _ h => hwrite i (of_decide_eq_true h)) nfds fds
  have htotal : (requests nfds fds).length = (members nfds fds 0).length +
      (members nfds fds 1).length + (members nfds fds 2).length := by
    simp [requests_eq, Nat.add_assoc]
  simp only [htotal, ← List.length_pos_iff] at hin hout
  refine ⟨?_, ?_, List.length_eq_zero_iff.mp ?_, ?_⟩
  · split at hin <;> split at hout <;> omega
  · split at hin <;> split at hout <;> omega
  · split at hin <;> split at hout <;> omega
  · simp only [← List.length_pos_iff]
    split at hin <;> split at hout <;> omega

/-- What `select` answers is right exactly when all it was asked about is ready. -/
theorem selectLaw_iff (nfds : Nat) (fds : FdSets) (n : Int) (revents : List (BitVec 16)) :
    SelectLaw nfds fds n revents (selectFinish (selectFill nfds fds).entries fds n) ↔
      AllReady nfds fds n revents := by
  rcases Int.lt_or_le 0 n with hn | hn
  · have hfinish : selectFinish (selectFill nfds fds).entries fds n =
        (some (selectAnswer (selectFill nfds fds).entries fds).1, fds) := by
      unfold selectFinish
      rw [if_neg (by omega), selectAnswer_eq]
    rw [hfinish, selectAnswer_eq]
    constructor
    · rintro ⟨-, hsets, hcount, -, -⟩
      have hinside : ∀ i set, fds i = some set → ∀ fd, set.isSet fd → fd < nfds := by
        intro i set hset fd hfd
        exact (mem_members.mp ((hsets hn i set hset fd).mp hfd).1).1
      have heq := hcount hn
      rw [totalCard_eq hinside, Option.some_inj] at heq
      dsimp only at heq
      have hone : OneEach nfds fds := oneEach_of_count (by exact_mod_cast heq)
      have hready : ∀ i, members nfds fds i ≠ [] →
          revents.getD i 0 &&& readiness i ≠ 0 := by
        intro i hi
        obtain ⟨fd, hfd⟩ := List.exists_mem_of_ne_nil _ hi
        obtain ⟨-, set, hset, hmem⟩ := mem_members.mp hfd
        exact ((hone.ready_iff revents i fd).mp ((hsets hn i set hset fd).mp hmem)).2
      exact ⟨hone, hn, hinside, hready 0, hready 1⟩
    · rintro ⟨hone, -, hinside, hreadable, hwritable⟩
      refine ⟨fun _ => rfl, ?_, ?_, fun h => ?_, fun h => ?_⟩
      · intro _ i set hset fd
        have hready : fd ∈ members nfds fds i → revents.getD i 0 &&& readiness i ≠ 0 := by
          intro hfd
          have hne := List.ne_nil_of_mem hfd
          obtain rfl | rfl | rfl : i = 0 ∨ i = 1 ∨ i = 2 := by omega
          · exact hreadable hne
          · exact hwritable hne
          · exact absurd hone.except hne
        have hmem : set.isSet fd ↔ fd ∈ members nfds fds i := by
          rw [mem_members]
          refine ⟨fun hfd => ⟨hinside i set hset fd hfd, set, hset, hfd⟩, ?_⟩
          rintro ⟨-, set', hset', hfd⟩
          rwa [Option.some_inj.mp (hset.symm.trans hset')]
        rw [hone.ready_iff, hmem, and_iff_left_of_imp hready]
      · intro _
        rw [totalCard_eq hinside, hone.entries, hone.except]
        have hne : pollIn ≠ pollOut := by decide
        simp [List.countP_map, Function.comp_def, hne, hne.symm]
      · omega
      · omega
  · have hfinish : selectFinish (selectFill nfds fds).entries fds n = (none, fds) := by
      unfold selectFinish
      rw [if_pos hn]
    rw [hfinish]
    refine iff_of_false ?_ fun h => by have := h.event; omega
    rintro ⟨-, -, -, htimeout, hfailed⟩
    rcases Int.lt_or_eq_of_le hn with hn | hn
    · simpa using hfailed hn
    · simpa using (htimeout hn).1

end Answer

/-- When `select` has gone on to `poll`, its answer is right exactly when the wait has ended
with an event and all it was asked about is ready. -/
theorem select_answer_iff {st : HookSys} (hhook : st.isEnableSysHook = true)
    (hnative : st.natives.head.ret = 0) (nfds : Nat) (fds : FdSets) (tv : Timeval)
    (left : Fin 3 → FdSet) (revents : List (BitVec 16)) :
    ∃ expired n, (st.select nfds fds (some tv) left).2.log = st.log ++
        [.native (.select nfds) 0, .waited (selectFill nfds fds).entries tv.ms expired n] ∧
      (SelectLaw nfds fds n revents (st.select nfds fds (some tv) left).1 ↔
        AllReady nfds fds n revents) := by
  obtain ⟨expired, n, u, hselect, hlog⟩ := HookSys.select_eq hhook hnative nfds fds tv left
  rw [hselect]
  exact ⟨expired, n, hlog, selectLaw_iff nfds fds n revents⟩

/-- One descriptor to be read and one to be written, and both are ready. -/
theorem select_answer_both :
    SelectLaw 6 (plainSets [3] [4]) 2 [pollIn, pollOut]
      ((trackedHook (Stream'.const ⟨0, 0⟩) 2).select 6 (plainSets [3] [4])
        (some ⟨1, 0⟩) fun _ => 0).1 := by
  obtain ⟨expired, n, hlog, hiff⟩ := select_answer_iff
    (show (trackedHook (Stream'.const ⟨0, 0⟩) 2).isEnableSysHook = true from rfl) rfl 6
    (plainSets [3] [4]) ⟨1, 0⟩ (fun _ => 0) [pollIn, pollOut]
  have hwaited : ((trackedHook (Stream'.const ⟨0, 0⟩) 2).select 6 (plainSets [3] [4])
      (some ⟨1, 0⟩) fun _ => 0).2.log = (trackedHook (Stream'.const ⟨0, 0⟩) 2).log ++
        [.native (.select 6) 0, .waited (selectFill 6 (plainSets [3] [4])).entries
          (Timeval.ms ⟨1, 0⟩) false 2] := rfl
  obtain rfl : n = 2 := by
    rw [hlog] at hwaited
    simp only [List.append_cancel_left_eq, List.cons.injEq, IoObs.waited.injEq] at hwaited
    exact hwaited.2.1.2.2.2
  refine hiff.mpr ⟨⟨?_, ?_, ?_, ?_⟩, by decide, ?_, fun _ => by decide, fun _ => by decide⟩
  · decide +kernel
  · decide +kernel
  · decide +kernel
  · decide +kernel
  · have hbelow : ∀ i set, plainSets [3] [4] i = some set →
        ∀ fd : Fin kFdSetsize, set.isSet fd → fd.val < 6 := by
      intro i set hset
      obtain rfl | rfl | rfl : i = 0 ∨ i = 1 ∨ i = 2 := by omega
      · obtain rfl := Option.some_inj.mp hset
        decide +kernel
      · obtain rfl := Option.some_inj.mp hset
        decide +kernel
      · simp [plainSets] at hset
    intro i set hset fd hfd
    exact hbelow i set hset ⟨fd, set.lt_kFdSetsize hfd⟩ hfd

/-- Only the first of two descriptors is ready, and `select` reports both; and when the wait
has timed out, `select` leaves the sets and returns an indeterminate value. -/
theorem select_answer_not_cleared :
    (((trackedHook (Stream'.const ⟨0, 0⟩) 1).select 6 (plainSets [3] [4]) (some ⟨1, 0⟩)
          fun _ => 0).1 = (some 2, plainSets [3] [4]) ∧
      ¬ SelectLaw 6 (plainSets [3] [4]) 1 [pollIn, 0]
        ((trackedHook (Stream'.const ⟨0, 0⟩) 1).select 6 (plainSets [3] [4]) (some ⟨1, 0⟩)
          fun _ => 0).1) ∧
    ((trackedHook (Stream'.const ⟨0, 0⟩) 0).select 6 (plainSets [3] [4]) (some ⟨1, 0⟩)
          fun _ => 0).1 = (none, plainSets [3] [4]) := by
  have hselect : ((trackedHook (Stream'.const ⟨0, 0⟩) 1).select 6 (plainSets [3] [4])
      (some ⟨1, 0⟩) fun _ => 0).1 =
        selectFinish (selectFill 6 (plainSets [3] [4])).entries (plainSets [3] [4]) 1 := rfl
  have hcount : (((selectFill 6 (plainSets [3] [4])).entries.countP
      (fun p => p.events = pollIn) : Int) + (selectFill 6 (plainSets [3] [4])).entries.countP
        (fun p => p.events = pollOut)) = 2 := by decide +kernel
  have hanswer := selectAnswer_eq 6 (plainSets [3] [4])
  rw [hcount] at hanswer
  rw [hselect]
  refine ⟨⟨?_, ?_⟩, rfl⟩
  · unfold selectFinish
    rw [if_neg (by decide), hanswer]
  · rw [selectLaw_iff]
    intro h
    have hmembers : members 6 (plainSets [3] [4]) 1 ≠ [] := by decide +kernel
    exact h.writable hmembers (by decide)

end Libcr
