import Libcr.Hook.Descriptors

/-!
# What the hooked functions do to descriptors

Every function that creates, changes or closes descriptors is described by what its
native calls do to the kernel's table and by which descriptors are tracked after it.
A file that stays open keeps its serial number; entries are created for descriptors
that are then made non-blocking, and the entry of what is closed with hooks on is
dropped.
-/

namespace Libcr

theorem hasNonblock_or (flags : BitVec 32) : HasNonblock (flags ||| oNonblock) := by
  unfold HasNonblock
  ext i
  simp only [BitVec.getElem_and, BitVec.getElem_or]
  cases flags[i] <;> cases oNonblock[i] <;> rfl

/-! ### What the kernel keeps -/

namespace Kernel

variable {k k' k'' : Kernel} {fd : Fd}

/-- A file that is open stays open, and non-blocking if it was. -/
def Keeps (k k' : Kernel) (fd : Fd) : Prop :=
  ∀ f, k.files fd = some f →
    ∃ f', k'.files fd = some f' ∧ f'.serial = f.serial ∧
      (HasNonblock f.flags → HasNonblock f'.flags)

/-- The descriptor is open and non-blocking. -/
def Set (k : Kernel) (fd : Fd) : Prop := ∃ f, k.files fd = some f ∧ HasNonblock f.flags

theorem Keeps.refl (k : Kernel) (fd : Fd) : k.Keeps k fd := fun f hf => ⟨f, hf, rfl, id⟩

theorem Keeps.of_eq (h : k'.files fd = k.files fd) : k.Keeps k' fd :=
  fun f hf => ⟨f, h.trans hf, rfl, id⟩

theorem Keeps.trans (h : k.Keeps k' fd) (h' : k'.Keeps k'' fd) : k.Keeps k'' fd := by
  intro f hf
  obtain ⟨f', hf', hserial', hnb'⟩ := h f hf
  obtain ⟨f'', hf'', hserial'', hnb''⟩ := h' f' hf'
  exact ⟨f'', hf'', hserial''.trans hserial', fun h => hnb'' (hnb' h)⟩

theorem Set.keeps (h : k.Set fd) (hkeeps : k.Keeps k' fd) : k'.Set fd := by
  obtain ⟨f, hf, hnb⟩ := h
  obtain ⟨f', hf', -, hnb'⟩ := hkeeps f hf
  exact ⟨f', hf', hnb' hnb⟩

theorem keeps_openFile {x : Fd} (hx : k.files x = none) (flags : BitVec 32) (fd : Fd) :
    k.Keeps (k.openFile x flags) fd := by
  by_cases heq : fd = x
  · intro f hf
    rw [heq, hx] at hf
    cases hf
  · exact Keeps.of_eq (Function.update_of_ne heq _ _)

theorem run_append (k : Kernel) (log log' : List IoObs) :
    k.run (log ++ log') = (k.run log).bind fun k' => k'.run log' := by
  induction log generalizing k with
  | nil => rfl
  | cons o log ih =>
      cases o with
      | native call ret =>
          simp only [List.cons_append, run, Option.bind_assoc]
          congr 1
          funext k'
          exact ih k'
      | waited => exact ih k

end Kernel

/-- The native calls made between two states of a call change the kernel as `R` says. -/
def Does (st st' : HookSys) (R : Kernel → Kernel → Prop) : Prop :=
  ∃ new, st'.log = st.log ++ new ∧ ∀ k k', k.run new = some k' → R k k'

namespace Does

variable {st st' st'' : HookSys} {R R' : Kernel → Kernel → Prop}

theorem trans (h : Does st st' R) (h' : Does st' st'' R') :
    Does st st'' (Relation.Comp R R') := by
  obtain ⟨new, hlog, hR⟩ := h
  obtain ⟨new', hlog', hR'⟩ := h'
  refine ⟨new ++ new', by rw [hlog', hlog, List.append_assoc], fun k k'' hrun => ?_⟩
  rw [Kernel.run_append, Option.bind_eq_some_iff] at hrun
  obtain ⟨k', hk', hk''⟩ := hrun
  exact ⟨k', hR k k' hk', hR' k' k'' hk''⟩

theorem mono (h : Does st st' R) (himp : ∀ k k', R k k' → R' k k') : Does st st' R' := by
  obtain ⟨new, hlog, hR⟩ := h
  exact ⟨new, hlog, fun k k' hrun => himp k k' (hR k k' hrun)⟩

/-- What is done after nothing was done. -/
theorem eq_trans (h : Does st st' Eq) (h' : Does st' st'' R) : Does st st'' R := by
  refine (h.trans h').mono ?_
  rintro k k' ⟨_, rfl, hR⟩
  exact hR

theorem of_log_eq (h : st'.log = st.log) : Does st st' Eq :=
  ⟨[], by rw [h, List.append_nil], fun _ _ hrun => Option.some.inj hrun⟩

theorem native (st : HookSys) (call : NativeCall) :
    Does st (st.native call).2 fun k k' => k.answer (st.native call).1 call = some k' := by
  refine ⟨[.native call (st.native call).1], rfl, fun k k' hrun => ?_⟩
  simp only [Kernel.run, Option.bind_eq_some_iff, Option.some.injEq] at hrun
  obtain ⟨_, hanswer, rfl⟩ := hrun
  exact hanswer

end Does

/-! ### What is tracked -/

section Table

variable {st : HookSys} {fd x : Fd}

theorem getByFd_isSome : (st.getByFd fd).isSome = true ↔ Tracked st.table fd := by
  unfold HookSys.getByFd Tracked
  split
  · rename_i h
    exact ⟨fun hs => ⟨h, hs⟩, fun hs => hs.2⟩
  · rename_i h
    exact ⟨fun hs => by simp at hs, fun hs => absurd hs.1 h⟩

theorem tracked_allocByFd : Tracked (st.allocByFd fd).table x ↔
    Tracked st.table x ∨ x = fd ∧ -1 < fd ∧ fd < kSocketFds := by
  unfold HookSys.allocByFd Tracked
  split
  · rename_i h
    by_cases heq : x = fd
    · subst heq
      simp [h]
    · simp [heq]
  · rename_i h
    exact ⟨Or.inl, fun hor => hor.resolve_right fun hx => h hx.2⟩

theorem tracked_freeByFd :
    Tracked (st.freeByFd fd).table x ↔ Tracked st.table x ∧ x ≠ fd := by
  unfold HookSys.freeByFd Tracked
  split
  · by_cases heq : x = fd
    · subst heq
      simp
    · simp [heq]
  · rename_i h
    exact ⟨fun hx => ⟨hx, fun heq => h (heq ▸ hx.1)⟩, fun hx => hx.1⟩

theorem tracked_setUserFlag (flags : BitVec 32) :
    Tracked (st.setUserFlag fd flags).table x ↔ Tracked st.table x := by
  unfold HookSys.setUserFlag
  cases hlp : st.getByFd fd with
  | none => rfl
  | some lp =>
      have hfd : Tracked st.table fd := getByFd_isSome.mp (by rw [hlp]; rfl)
      by_cases heq : x = fd
      · subst heq
        exact ⟨fun _ => hfd, fun _ => ⟨hfd.1, by simp⟩⟩
      · simp [Tracked, heq]

/-- The flags `fcntl` passes on. -/
def HookSys.setflFlag (st : HookSys) (fd : Fd) (param : BitVec 32) : BitVec 32 :=
  if st.isEnableSysHook ∧ (st.getByFd fd).isSome then param ||| oNonblock else param

theorem fcntlSetfl_cases (st : HookSys) (fd : Fd) (param : BitVec 32) :
    fd < 0 ∧ (st.fcntlSetfl fd param).2 = st ∨
      0 ≤ fd ∧ ((st.fcntlSetfl fd param).2 = (st.native (.setfl fd (st.setflFlag fd param))).2 ∨
        (st.fcntlSetfl fd param).2 =
          (st.native (.setfl fd (st.setflFlag fd param))).2.setUserFlag fd param) := by
  by_cases hneg : fd < 0
  · exact Or.inl ⟨hneg, by rw [HookSys.fcntlSetfl, if_pos hneg]⟩
  · refine Or.inr ⟨Int.not_lt.mp hneg, ?_⟩
    rw [HookSys.fcntlSetfl, if_neg hneg]
    by_cases hret : (st.native (.setfl fd (st.setflFlag fd param))).1 = 0
    · exact Or.inr (congrArg Prod.snd (if_pos hret))
    · exact Or.inl (congrArg Prod.snd (if_neg hret))

theorem tracked_fcntlSetfl (param : BitVec 32) :
    Tracked (st.fcntlSetfl fd param).2.table x ↔ Tracked st.table x := by
  rcases fcntlSetfl_cases st fd param with ⟨-, h⟩ | ⟨-, h | h⟩ <;> rw [h]
  · rfl
  · exact tracked_setUserFlag param

theorem fcntlGetfl_table : (st.fcntlGetfl fd).2.table = st.table := by
  unfold HookSys.fcntlGetfl
  split <;> rfl

theorem tracked_close : Tracked (st.close fd).2.table x ↔
    Tracked st.table x ∧ (st.isEnableSysHook = true → x ≠ fd) := by
  unfold HookSys.close
  by_cases hon : st.isEnableSysHook = true
  · rw [if_neg (by simpa using hon)]
    dsimp only
    split
    · rw [show (HookSys.native _ _).2.table = (st.freeByFd fd).table from rfl, tracked_freeByFd]
      simp [hon]
    · rename_i h
      rw [getByFd_isSome] at h
      exact ⟨fun hx => ⟨hx, fun _ heq => h (heq ▸ hx)⟩, fun hx => hx.1⟩
  · rw [if_pos hon]
    exact ⟨fun hx => ⟨hx, fun h => absurd h hon⟩, fun hx => hx.1⟩

end Table

/-! ### What the functions do -/

section Functions

variable {st : HookSys} {fd : Fd}

/-- Descriptor `fd` is made non-blocking, if it is open. -/
structure Kernel.Sets (fd : Fd) (k k' : Kernel) : Prop where
  keeps : ∀ x, k.Keeps k' x
  closed : ∀ x, k.files x = none → k'.files x = none
  set : 0 ≤ fd → k.files fd ≠ none → k'.Set fd

/-- The effect of `F_SETFL` where the kernel answers it. -/
theorem Kernel.answer_setfl {k k' : Kernel} {ret : Int} {flags : BitVec 32}
    (h : k.answer ret (.setfl fd flags) = some k') :
    k.files fd = none ∧ k' = k ∨
      ∃ f, k.files fd = some f ∧
        k'.files = Function.update k.files fd (some { f with flags := flags }) := by
  simp only [Kernel.answer] at h
  split at h
  · rename_i f hf
    split at h
    · cases h
      exact Or.inr ⟨f, hf, rfl⟩
    · cases h
  · rename_i hf
    split at h
    · cases h
      exact Or.inl ⟨hf, rfl⟩
    · cases h

theorem Kernel.sets_of_answer {k k' : Kernel} {ret : Int} {flags : BitVec 32}
    (h : k.answer ret (.setfl fd flags) = some k') (hflags : HasNonblock flags) :
    k.Sets fd k' := by
  rcases Kernel.answer_setfl h with ⟨hnone, rfl⟩ | ⟨f, hf, hfiles⟩
  · exact ⟨fun x => .refl _ x, fun _ hx => hx, fun _ hopen => absurd hnone hopen⟩
  · have hother : ∀ x, x ≠ fd → k'.files x = k.files x := by
      intro x hne
      rw [hfiles, Function.update_of_ne hne]
    have hself : k'.files fd = some { f with flags := flags } := by
      rw [hfiles, Function.update_self]
    refine ⟨fun x => ?_, fun x hx => ?_, fun _ _ => ⟨_, hself, hflags⟩⟩
    · by_cases heq : x = fd
      · subst heq
        intro f' hf'
        obtain rfl := Option.some.inj (hf.symm.trans hf')
        exact ⟨_, hself, rfl, fun _ => hflags⟩
      · exact .of_eq (hother x heq)
    · have hne : x ≠ fd := by
        rintro rfl
        rw [hf] at hx
        cases hx
      rw [hother x hne, hx]

/-- `fcntl(fd, F_SETFL, param)`. -/
theorem does_fcntlSetfl (st : HookSys) (fd : Fd) (param : BitVec 32) :
    Does st (st.fcntlSetfl fd param).2 fun k k' => fd < 0 ∧ k' = k ∨
      0 ≤ fd ∧ ∃ ret, k.answer ret (.setfl fd (st.setflFlag fd param)) = some k' := by
  rcases fcntlSetfl_cases st fd param with ⟨hneg, h⟩ | ⟨hfd, h⟩
  · rw [h]
    exact (Does.of_log_eq rfl).mono fun _ _ heq => Or.inl ⟨hneg, heq.symm⟩
  · obtain ⟨new, hlog, hR⟩ := Does.native st (.setfl fd (st.setflFlag fd param))
    refine ⟨new, ?_, fun k k' hrun => Or.inr ⟨hfd, _, hR k k' hrun⟩⟩
    rcases h with h | h <;> rw [h]
    · exact hlog
    · rw [HookSys.setUserFlag_log, hlog]

theorem does_fcntlGetfl (st : HookSys) (fd : Fd) : Does st (st.fcntlGetfl fd).2 Eq := by
  unfold HookSys.fcntlGetfl
  split
  · exact .of_log_eq rfl
  · refine (Does.native st (.getfl fd)).mono fun k k' hk => ?_
    simp only [Kernel.answer] at hk
    split at hk <;> split at hk <;> first | exact Option.some.inj hk | cases hk

/-- `fcntl(fd, F_SETFL, fcntl(fd, F_GETFL, 0) | O_NONBLOCK)`. -/
theorem does_nonblock (st : HookSys) (fd : Fd) :
    Does st ((st.fcntlGetfl fd).2.fcntlSetfl fd
      (BitVec.ofInt 32 (st.fcntlGetfl fd).1 ||| oNonblock)).2 (Kernel.Sets fd) := by
  refine ((does_fcntlGetfl st fd).eq_trans (does_fcntlSetfl _ fd _)).mono ?_
  rintro k k' (⟨hneg, rfl⟩ | ⟨hfd, ret, hk⟩)
  · exact ⟨fun x => .refl k' x, fun _ hx => hx, fun hfd => absurd hneg (Int.not_lt.mpr hfd)⟩
  · refine Kernel.sets_of_answer hk ?_
    unfold HookSys.setflFlag
    split
    · exact hasNonblock_or _
    · exact hasNonblock_or _

theorem tracked_nonblock (st : HookSys) (fd x : Fd) : Tracked ((st.fcntlGetfl fd).2.fcntlSetfl fd
      (BitVec.ofInt 32 (st.fcntlGetfl fd).1 ||| oNonblock)).2.table x ↔
    Tracked st.table x := by
  rw [tracked_fcntlSetfl, fcntlGetfl_table]

theorem does_allocByFd (st : HookSys) (fd : Fd) : Does st (st.allocByFd fd) Eq :=
  .of_log_eq HookSys.allocByFd_log

/-- An entry is made for a descriptor, which is then made non-blocking. -/
theorem does_track (st : HookSys) (fd : Fd) :
    Does st (((st.allocByFd fd).fcntlGetfl fd).2.fcntlSetfl fd
      (BitVec.ofInt 32 ((st.allocByFd fd).fcntlGetfl fd).1 ||| oNonblock)).2
      (Kernel.Sets fd) :=
  (does_allocByFd st fd).eq_trans (does_nonblock _ fd)

theorem accepted_ret (st : HookSys) (fd : Fd) : (st.accepted fd).1 = fd := by
  unfold HookSys.accepted
  dsimp only
  split <;> rfl

/-- A new descriptor is tracked and made non-blocking. -/
theorem does_accepted (st : HookSys) (fd : Fd) :
    Does st (st.accepted fd).2 (Kernel.Sets fd) := by
  obtain ⟨new, hlog, hR⟩ := does_track st fd
  refine ⟨new, ?_, hR⟩
  rw [← hlog]
  unfold HookSys.accepted
  dsimp only
  split
  · exact HookSys.setUserFlag_log _
  · rfl

theorem tracked_accepted {x : Fd} : Tracked (st.accepted fd).2.table x ↔
    Tracked st.table x ∨ x = fd ∧ -1 < fd ∧ fd < kSocketFds := by
  have hset : Tracked (st.accepted fd).2.table x ↔ Tracked (st.allocByFd fd).table x := by
    rw [← tracked_nonblock (st.allocByFd fd) fd x]
    unfold HookSys.accepted
    dsimp only
    split
    · exact tracked_setUserFlag _
    · rfl
  rw [hset, tracked_allocByFd]

/-- The effect of the native `accept` where the kernel answers it. -/
theorem Kernel.answer_accept {k k' : Kernel} {ret : Int} {listenFd : Fd}
    (h : k.answer ret (.accept listenFd) = some k') :
    ret < 0 ∧ k' = k ∨
      0 ≤ ret ∧ k.files listenFd ≠ none ∧ k.files ret = none ∧ k' = k.openFile ret oRdwr := by
  simp only [Kernel.answer] at h
  split at h
  · exact Or.inl ⟨by assumption, (Option.some.inj h).symm⟩
  · split at h
    · rename_i hret hfiles
      exact Or.inr ⟨Int.not_lt.mp hret, hfiles.1, hfiles.2, (Option.some.inj h).symm⟩
    · cases h

/-- The effect of the native `socket` where the kernel answers it. -/
theorem Kernel.answer_socket {k k' : Kernel} {ret : Int} {nonblock : Bool}
    (h : k.answer ret (.socket nonblock) = some k') :
    ret < 0 ∧ k' = k ∨ 0 ≤ ret ∧ k.files ret = none ∧ ∃ flags, k' = k.openFile ret flags := by
  simp only [Kernel.answer] at h
  split at h
  · exact Or.inl ⟨by assumption, (Option.some.inj h).symm⟩
  · split at h
    · rename_i hret hfree
      exact Or.inr ⟨Int.not_lt.mp hret, hfree, _, (Option.some.inj h).symm⟩
    · cases h

/-- What `accept` does from the call of the native function on, up to its next wait or its
return. -/
structure Settled (u : HookSys) (listenFd : Fd) (o : Outcome) : Prop where
  does : Does u o.st fun k k' => (∀ x, k.Keeps k' x) ∧ (∀ x ∈ o.acceptedFd, k'.Set x) ∧
    (k.files listenFd = none → k'.files listenFd = none)
  tracked : ∀ x, Tracked o.st.table x ↔
    Tracked u.table x ∨ x ∈ o.acceptedFd ∧ -1 < x ∧ x < kSocketFds
  waiting : ∀ p, o = .inl p → p.ret < 0 ∧ p.st.isEnableSysHook = u.isEnableSysHook

theorem settled_native (u : HookSys) (listenFd : Fd) (n : Int) :
    Settled u listenFd (acceptSettle listenFd
      (.inl ⟨n, (u.native (.accept listenFd)).1, (u.native (.accept listenFd)).2⟩)) := by
  have hnative := Does.native u (.accept listenFd)
  generalize ha : u.native (.accept listenFd) = a at hnative
  have htable : a.2.table = u.table := by rw [← ha]; rfl
  have htask : a.2.task = u.task := by rw [← ha]; rfl
  by_cases hret : a.1 < 0
  · -- nothing was accepted, and the kernel is as it was
    have hdoes : Does u a.2 fun k k' => (∀ x, k.Keeps k' x) ∧
        (∀ x ∈ ([] : List Fd), k'.Set x) ∧
        (k.files listenFd = none → k'.files listenFd = none) := by
      refine hnative.mono fun k k' hk => ?_
      rcases Kernel.answer_accept hk with ⟨-, rfl⟩ | ⟨hpos, -⟩
      · exact ⟨fun x => .refl _ x, by simp, id⟩
      · exact absurd hret (Int.not_lt.mpr hpos)
    have htracked : ∀ x, Tracked a.2.table x ↔
        Tracked u.table x ∨ x ∈ ([] : List Fd) ∧ -1 < x ∧ x < kSocketFds := by
      simp [htable]
    by_cases hagain : a.2.errno = Errno.eagain
    · rw [acceptSettle, if_pos ⟨hret, hagain⟩]
      refine ⟨hdoes, htracked, ?_⟩
      rintro p ⟨⟩
      exact ⟨hret, by rw [HookSys.isEnableSysHook, htask]; rfl⟩
    · rw [acceptSettle, if_neg fun h => hagain h.2, HookSys.acceptTurn, if_pos hret,
        if_neg hagain]
      have hnone : Outcome.acceptedFd (.inr (a.1, a.2)) = [] := if_pos hret
      exact ⟨by rw [hnone]; exact hdoes, by rw [hnone]; exact htracked, fun p hp => by cases hp⟩
  · rw [acceptSettle, if_neg fun h => hret h.1, HookSys.acceptTurn, if_neg hret]
    have hone : Outcome.acceptedFd (.inr (a.2.accepted a.1)) = [a.1] := by
      rw [Outcome.acceptedFd, accepted_ret, if_neg hret]
    refine ⟨?_, fun x => ?_, fun p hp => by cases hp⟩
    · rw [hone]
      refine (hnative.trans (does_accepted a.2 a.1)).mono ?_
      rintro k k'' ⟨k', hk', hsets⟩
      rcases Kernel.answer_accept hk' with ⟨hneg, -⟩ | ⟨hpos, hlisten, hfree, rfl⟩
      · exact absurd hneg hret
      · refine ⟨fun x => (Kernel.keeps_openFile hfree _ x).trans (hsets.keeps x), ?_,
          fun hnone => absurd hnone hlisten⟩
        intro x hx
        obtain rfl := List.mem_singleton.mp hx
        refine hsets.set hpos ?_
        simp [Kernel.openFile]
    · rw [hone, List.mem_singleton]
      rw [show Outcome.st (.inr (a.2.accepted a.1)) = (a.2.accepted a.1).2 from rfl,
        tracked_accepted, htable]
      refine or_congr_right ⟨fun hx => ?_, fun hx => ?_⟩
      · obtain ⟨rfl, hx⟩ := hx
        exact ⟨rfl, hx⟩
      · obtain ⟨rfl, hx⟩ := hx
        exact ⟨rfl, hx⟩

/-- What a segment of `accept` leaves behind: descriptors that are still tracked stay what
they were, and the accepted one is open and non-blocking. -/
structure Effect (u : HookSys) (o : Outcome) : Prop where
  does : Does u o.st fun k k' =>
    (∀ x, Tracked o.st.table x → k.Keeps k' x) ∧ ∀ x ∈ o.acceptedFd, k'.Set x
  tracked : ∀ x, Tracked o.st.table x → Tracked u.table x ∨ x ∈ o.acceptedFd
  waiting : ∀ p, o = .inl p → p.ret < 0 ∧ p.st.isEnableSysHook = u.isEnableSysHook

theorem Settled.effect {u : HookSys} {listenFd : Fd} {o : Outcome}
    (h : Settled u listenFd o) : Effect u o where
  does := h.does.mono fun _ _ hk => ⟨fun x _ => hk.1 x, hk.2.1⟩
  tracked x hx := ((h.tracked x).mp hx).imp_right And.left
  waiting := h.waiting

/-- The effect of `close` where the kernel answers it. -/
theorem Kernel.answer_close {k k' : Kernel} {ret : Int}
    (h : k.answer ret (.close fd) = some k') :
    k'.files fd = none ∧ ∀ x, x ≠ fd → k'.files x = k.files x := by
  simp only [Kernel.answer] at h
  split at h
  · cases h
    exact ⟨Function.update_self .., fun x hne => Function.update_of_ne hne ..⟩
  · split at h
    · cases h
      exact ⟨by assumption, fun _ _ => rfl⟩
    · cases h

theorem does_close (st : HookSys) (fd : Fd) :
    Does st (st.close fd).2 fun k k' =>
      k'.files fd = none ∧ ∀ x, x ≠ fd → k'.files x = k.files x := by
  refine ⟨_, st.close_log fd, fun k k' hrun => ?_⟩
  simp only [Kernel.run, Option.bind_eq_some_iff, Option.some.injEq] at hrun
  obtain ⟨_, hanswer, rfl⟩ := hrun
  exact Kernel.answer_close hanswer

/-- A wait makes no native call, and finds the table as the others have left it. -/
theorem does_pollInner (st : HookSys) (fds : List PollFd) (timeout : Int) :
    Does st (st.pollInner fds timeout).2 Eq := by
  obtain ⟨-, hlog, -⟩ := st.pollInner_spec fds timeout
  exact ⟨_, hlog, fun _ _ hrun => Option.some.inj hrun⟩

theorem pollInner_table (h : st.waits.head.table = st.table) (fds : List PollFd)
    (timeout : Int) : (st.pollInner fds timeout).2.table = st.table := by
  unfold HookSys.pollInner
  dsimp only
  split
  · rfl
  · exact h

/-- The segment of `accept` from the end of a wait on. -/
theorem effect_resume {listenFd : Fd} {p : Progress} (hret : p.ret < 0)
    (hon : p.st.isEnableSysHook = true) (hwait : p.st.waits.head.table = p.st.table) :
    Effect p.st (acceptSettle listenFd (HookSys.acceptTurn listenFd p)) := by
  unfold HookSys.acceptTurn
  rw [if_pos hret]
  split
  · -- the wait, and then `close` or the native `accept`
    have hpoll := does_pollInner p.st [⟨listenFd, pollIn ||| pollErr ||| pollHup⟩] (-1)
    have htable := pollInner_table hwait [⟨listenFd, pollIn ||| pollErr ||| pollHup⟩] (-1)
    obtain ⟨hhook, -⟩ :=
      p.st.pollInner_cases [⟨listenFd, pollIn ||| pollErr ||| pollHup⟩] (-1)
    generalize p.st.pollInner [⟨listenFd, pollIn ||| pollErr ||| pollHup⟩] (-1) = r at *
    dsimp only
    split
    · have htracked : ∀ x, Tracked (r.2.close listenFd).2.table x →
          Tracked p.st.table x ∧ x ≠ listenFd := by
        intro x hx
        rw [tracked_close, htable] at hx
        exact ⟨hx.1, hx.2 (hhook.trans hon)⟩
      refine ⟨?_, fun x hx => Or.inl (htracked x hx).1, fun q hq => by cases hq⟩
      refine (hpoll.eq_trans (does_close r.2 listenFd)).mono ?_
      rintro k k' ⟨-, hother⟩
      refine ⟨fun x hx => .of_eq (hother x (htracked x hx).2), fun x hx => ?_⟩
      cases hx
    · obtain ⟨hdoes, htracked, hwaiting⟩ := (settled_native r.2 listenFd p.n).effect
      rw [htable] at htracked
      rw [hhook] at hwaiting
      exact ⟨hpoll.eq_trans hdoes, htracked, hwaiting⟩
  · have hnone : Outcome.acceptedFd (.inr (p.ret, p.st)) = [] := if_pos hret
    refine ⟨(Does.of_log_eq rfl).mono ?_, fun x hx => Or.inl hx, fun q hq => by cases hq⟩
    rintro k k' rfl
    refine ⟨fun x _ => .refl k x, fun x hx => ?_⟩
    rw [acceptSettle, hnone] at hx
    cases hx

/-- `accept` up to the native function: a listening descriptor that is not tracked yet is
tracked and made non-blocking. -/
def HookSys.listening (st : HookSys) (listenFd : Fd) : HookSys :=
  if (st.getByFd listenFd).isNone then
    ((((st.allocByFd listenFd).fcntlGetfl listenFd).2.fcntlSetfl listenFd
      (BitVec.ofInt 32 ((st.allocByFd listenFd).fcntlGetfl listenFd).1 ||| oNonblock)).2)
  else st

theorem allocByFd_task : (st.allocByFd fd).task = st.task := by
  unfold HookSys.allocByFd
  split <;> rfl

theorem fcntlGetfl_task : (st.fcntlGetfl fd).2.task = st.task := by
  unfold HookSys.fcntlGetfl
  split <;> rfl

theorem fcntlSetfl_task (param : BitVec 32) :
    (st.fcntlSetfl fd param).2.task = st.task := by
  rcases fcntlSetfl_cases st fd param with ⟨-, h⟩ | ⟨-, h | h⟩ <;> rw [h]
  · rfl
  · unfold HookSys.setUserFlag
    split <;> rfl

theorem listening_isEnableSysHook (listenFd : Fd) :
    (st.listening listenFd).isEnableSysHook = st.isEnableSysHook := by
  unfold HookSys.listening
  split
  · rw [HookSys.isEnableSysHook, fcntlSetfl_task, fcntlGetfl_task, allocByFd_task]
    rfl
  · rfl

theorem accept_zero (hon : st.isEnableSysHook = true) (listenFd : Fd) :
    st.accept listenFd 0 = .inl ⟨0, ((st.listening listenFd).native (.accept listenFd)).1,
      ((st.listening listenFd).native (.accept listenFd)).2⟩ := by
  rw [HookSys.accept, if_neg (by simpa using hon)]
  rfl

theorem getByFd_isNone : (st.getByFd fd).isNone = true ↔ ¬ Tracked st.table fd := by
  rw [← getByFd_isSome, Option.isNone_iff_eq_none, Option.isSome_iff_ne_none, not_not]

theorem does_listening_new {listenFd : Fd} (h : ¬ Tracked st.table listenFd) :
    Does st (st.listening listenFd) (Kernel.Sets listenFd) := by
  rw [HookSys.listening, if_pos (getByFd_isNone.mpr h)]
  exact does_track st listenFd

theorem listening_of_tracked {listenFd : Fd} (h : Tracked st.table listenFd) :
    st.listening listenFd = st :=
  if_neg fun hnone => getByFd_isNone.mp hnone h

theorem tracked_listening {listenFd x : Fd} :
    Tracked (st.listening listenFd).table x ↔
      Tracked st.table x ∨ x = listenFd ∧ -1 < listenFd ∧ listenFd < kSocketFds ∧
        ¬ Tracked st.table listenFd := by
  by_cases h : Tracked st.table listenFd
  · rw [listening_of_tracked h]
    simp [h]
  · rw [HookSys.listening, if_pos (getByFd_isNone.mpr h), tracked_nonblock, tracked_allocByFd]
    simp [h]

end Functions

end Libcr
