import Libcr.Scheduler.Poll

/-!
# What the registration loops do to the epoll set

The loop before the wait adds entries for descriptors that have none and leaves
every other entry alone. The loop after the wait, and the one on the error
path, clear the entry of every descriptor of the array, whoever made it.
-/

namespace Libcr

/-- The descriptors of an array that the loops of `poll_inner` look at. -/
def watched (fds : List PollFd) (fd : Fd) : Prop := -1 < fd ∧ ∃ p ∈ fds, p.fd = fd

instance (fds : List PollFd) (fd : Fd) : Decidable (watched fds fd) :=
  inferInstanceAs (Decidable (-1 < fd ∧ ∃ p ∈ fds, p.fd = fd))

theorem watched_cons {p : PollFd} {fds : List PollFd} {fd : Fd} :
    watched (p :: fds) fd ↔ -1 < fd ∧ p.fd = fd ∨ watched fds fd := by
  simp only [watched, List.mem_cons, exists_eq_or_imp]
  tauto

/-- The `k`-th entry of an array that starts at position `i` is the first one for its
descriptor that the kernel accepts. -/
structure Enters (addErr : Nat → Option Errno) (i : Nat) (fds : List PollFd) (k : Nat)
    (p : PollFd) : Prop where
  entry : fds[k]? = some p
  fd : -1 < p.fd
  accepted : addErr (i + k) = none
  first : ∀ j < k, ∀ q, fds[j]? = some q → q.fd = p.fd → addErr (i + j) ≠ none

namespace Enters

variable {addErr : Nat → Option Errno} {i k : Nat} {fds : List PollFd} {p q : PollFd}

theorem zero (hfd : -1 < p.fd) (hacc : addErr i = none) : Enters addErr i (p :: fds) 0 p where
  entry := rfl
  fd := hfd
  accepted := hacc
  first := fun _ hj => absurd hj (Nat.not_lt_zero _)

theorem succ (h : Enters addErr (i + 1) fds k p) (hq : q.fd = p.fd → addErr i ≠ none) :
    Enters addErr i (q :: fds) (k + 1) p where
  entry := h.entry
  fd := h.fd
  accepted := by
    rw [← h.accepted]
    congr 1
    omega
  first := by
    intro j hj q' hq' hfd
    cases j with
    | zero =>
        obtain rfl : q = q' := by simpa using hq'
        exact hq hfd
    | succ j =>
        have hne := h.first j (Nat.lt_of_succ_lt_succ hj) q' hq' hfd
        rwa [Nat.add_assoc, Nat.add_comm 1] at hne

theorem of_succ (h : Enters addErr i (q :: fds) (k + 1) p) :
    Enters addErr (i + 1) fds k p ∧ (q.fd = p.fd → addErr i ≠ none) := by
  refine ⟨⟨h.entry, h.fd, ?_, ?_⟩, fun hfd => h.first 0 (Nat.succ_pos k) q rfl hfd⟩
  · rw [← h.accepted]
    congr 1
    omega
  · intro j hj q' hq' hfd
    have hne := h.first (j + 1) (Nat.succ_lt_succ hj) q' hq' hfd
    rwa [Nat.add_assoc, Nat.add_comm 1]

end Enters

section Add

variable {call : PollCall} {f : FrameId}

theorem addEpoll_of_some {rest : List PollFd} {i : Nat}
    {set : Fd → Option Registration} {fd : Fd} {r : Registration}
    (h : set fd = some r) : (addEpoll call f i rest set).1 fd = some r := by
  induction rest generalizing i set with
  | nil => exact h
  | cons p rest ih =>
      simp only [addEpoll]
      split
      · cases hp : set p.fd with
        | some q =>
            simp only [ctlAdd, hp]
            split
            · exact h
            · exact ih h
        | none =>
            cases he : call.addErr i with
            | some e =>
                simp only [ctlAdd, hp]
                split
                · exact h
                · exact ih h
            | none =>
                simp only [ctlAdd, hp]
                apply ih
                have hne : fd ≠ p.fd := by
                  intro heq
                  rw [heq, hp] at h
                  simp at h
                rw [Function.update_of_ne hne, h]
      · exact ih h

/-- Every entry of the set after the loop was there before, or is the one the call made for
the first entry of the array that the kernel accepts for that descriptor. -/
theorem addEpoll_own {rest : List PollFd} {i : Nat} {set : Fd → Option Registration} {fd : Fd}
    {r : Registration} (h : (addEpoll call f i rest set).1 fd = some r) :
    set fd = some r ∨ set fd = none ∧ ∃ k p, Enters call.addErr i rest k p ∧ p.fd = fd ∧
      r = ⟨f, i + k, pollEventToEpoll p.events⟩ := by
  induction rest generalizing i set with
  | nil => exact Or.inl h
  | cons q rest ih =>
      -- What the induction hypothesis says when the entry `q` is passed over.
      have skip : (set fd = none → q.fd = fd → call.addErr i ≠ none) →
          (addEpoll call f (i + 1) rest set).1 fd = some r →
          set fd = some r ∨ set fd = none ∧ ∃ k p, Enters call.addErr i (q :: rest) k p ∧
            p.fd = fd ∧ r = ⟨f, i + k, pollEventToEpoll p.events⟩ := by
        intro hq h'
        rcases ih h' with hold | ⟨hnone, k, p, hp, hfd, hr⟩
        · exact Or.inl hold
        · refine Or.inr ⟨hnone, k + 1, p, hp.succ fun heq => hq hnone (heq.trans hfd), hfd, ?_⟩
          rw [hr, Nat.add_assoc i, Nat.add_comm 1]
      simp only [addEpoll] at h
      split at h
      · next hfd =>
          cases hq : set q.fd with
          | some r' =>
              have hpass : set fd = none → q.fd = fd → call.addErr i ≠ none := by
                rintro hnone rfl
                rw [hq] at hnone
                simp at hnone
              simp only [ctlAdd, hq] at h
              split at h
              · exact Or.inl h
              · exact skip hpass h
          | none =>
              cases he : call.addErr i with
              | some e =>
                  simp only [ctlAdd, hq, he] at h
                  split at h
                  · exact Or.inl h
                  · exact skip (fun _ _ => by simp [he]) h
              | none =>
                  simp only [ctlAdd, hq, he] at h
                  by_cases heq : fd = q.fd
                  · -- The entry `q` is the one: the rest of the loop leaves it alone.
                    subst heq
                    rw [addEpoll_of_some (Function.update_self ..), Option.some.injEq] at h
                    exact Or.inr ⟨hq, 0, q, Enters.zero hfd he, rfl, h.symm⟩
                  · rcases ih h with hold | ⟨hnone, k, p, hp, hpfd, hr⟩
                    · rw [Function.update_of_ne heq] at hold
                      exact Or.inl hold
                    · rw [Function.update_of_ne heq] at hnone
                      refine Or.inr ⟨hnone, k + 1, p,
                        hp.succ fun hqp => absurd (hqp.trans hpfd) (Ne.symm heq), hpfd, ?_⟩
                      rw [hr, Nat.add_assoc i, Nat.add_comm 1]
      · next hfd =>
          by_cases heq : q.fd = fd
          · rcases ih h with hold | ⟨-, k, p, hp, hpfd, -⟩
            · exact Or.inl hold
            · exact absurd (heq.trans hpfd.symm ▸ hp.fd) hfd
          · exact skip (fun _ hqfd => absurd hqfd heq) h

/-- Every entry of the set after the loop was there before or is one of the
call's own, for the descriptor at its position. -/
theorem addEpoll_cases {rest : List PollFd} {i : Nat}
    {set : Fd → Option Registration} {fd : Fd} {r : Registration}
    (h : (addEpoll call f i rest set).1 fd = some r) :
    set fd = some r ∨
      r.frame = f ∧ -1 < fd ∧ i ≤ r.item ∧ ∃ p, rest[r.item - i]? = some p ∧ p.fd = fd := by
  rcases addEpoll_own h with hold | ⟨-, k, p, hp, rfl, rfl⟩
  · exact Or.inl hold
  · refine Or.inr ⟨rfl, hp.fd, Nat.le_add_right i k, p, ?_, rfl⟩
    rw [Nat.add_sub_cancel_left]
    exact hp.entry

/-- The first entry that the kernel accepts for a descriptor without a registration is
registered, unless the loop is left for the native `poll`. -/
theorem addEpoll_enters {rest : List PollFd} {i k : Nat} {set : Fd → Option Registration}
    {p : PollFd} (hp : Enters call.addErr i rest k p) (hnone : set p.fd = none)
    (hstay : (addEpoll call f i rest set).2.2 = false) :
    (addEpoll call f i rest set).1 p.fd = some ⟨f, i + k, pollEventToEpoll p.events⟩ := by
  induction rest generalizing i k set with
  | nil => exact absurd hp.entry (by simp)
  | cons q rest ih =>
      cases k with
      | zero =>
          obtain rfl : q = p := by simpa using hp.entry
          have hacc : call.addErr i = none := hp.accepted
          simp only [addEpoll, gt_iff_lt, if_pos hp.fd, ctlAdd, hnone, hacc]
          exact addEpoll_of_some (Function.update_self ..)
      | succ k =>
          obtain ⟨hrest, hfirst⟩ := hp.of_succ
          have hindex : i + (k + 1) = i + 1 + k := by omega
          rw [hindex]
          simp only [addEpoll] at hstay ⊢
          split
          · next hfd =>
              rw [if_pos hfd] at hstay
              cases hq : set q.fd with
              | some r' =>
                  simp only [ctlAdd, hq] at hstay ⊢
                  split
                  · next hleave => simp [hleave] at hstay
                  · next hleave =>
                      rw [if_neg hleave] at hstay
                      exact ih hrest hnone hstay
              | none =>
                  cases he : call.addErr i with
                  | some e =>
                      simp only [ctlAdd, hq, he] at hstay ⊢
                      split
                      · next hleave => simp [hleave] at hstay
                      · next hleave =>
                          rw [if_neg hleave] at hstay
                          exact ih hrest hnone hstay
                  | none =>
                      have hne : p.fd ≠ q.fd := fun heq => hfirst heq.symm he
                      simp only [ctlAdd, hq, he] at hstay ⊢
                      exact ih hrest (by rw [Function.update_of_ne hne, hnone]) hstay
          · next hfd =>
              rw [if_neg hfd] at hstay
              exact ih hrest hnone hstay

/-- The loop is left for the native `poll` only with a single entry, and only if there is a
native `poll`. -/
theorem addEpoll_stays (h : ¬ (call.fds.length = 1 ∧ call.pollfunc)) (rest : List PollFd) (i : Nat)
    (set : Fd → Option Registration) : (addEpoll call f i rest set).2.2 = false := by
  induction rest generalizing i set with
  | nil => rfl
  | cons p rest ih =>
      simp only [addEpoll]
      split
      · cases hc : ctlAdd set p.fd ⟨f, i, pollEventToEpoll p.events⟩ (call.addErr i) with
        | mk set' e =>
            cases e with
            | none => exact ih (i + 1) set'
            | some e =>
                dsimp only
                rw [if_neg fun hleave => h hleave.2]
                exact ih (i + 1) set'
      · exact ih (i + 1) set

/-- The loop is left for the native `poll` only with the set as it was. -/
theorem addEpoll_fallback {set : Fd → Option Registration}
    (h : (addEpoll call f 0 call.fds set).2.2 = true) :
    (addEpoll call f 0 call.fds set).1 = set ∧
      (addEpoll call f 0 call.fds set).2.1 = [] := by
  -- The branch needs an array of length one, so nothing was registered before.
  by_cases hlen : call.fds.length = 1
  · obtain ⟨p, hp⟩ := List.length_eq_one_iff.mp hlen
    rw [hp] at h ⊢
    simp only [addEpoll] at h ⊢
    split
    · next hfd =>
        cases hs : set p.fd with
        | some q =>
            simp only [ctlAdd, hs]
            split <;> exact ⟨rfl, rfl⟩
        | none =>
            cases he : call.addErr 0 with
            | some e =>
                simp only [ctlAdd, hs]
                split <;> exact ⟨rfl, rfl⟩
            | none => simp [ctlAdd, hs, he, hfd] at h
    · exact ⟨rfl, rfl⟩
  · rw [addEpoll_stays fun hleave => hlen hleave.1] at h
    simp at h

end Add

section Del

variable {f : FrameId}

/-- After the loop no descriptor of the array is registered, and no other one
has changed. -/
theorem delEpoll_set (fds : List PollFd) (set : Fd → Option Registration) (fd : Fd) :
    (delEpoll f fds set).1 fd = if watched fds fd then none else set fd := by
  induction fds generalizing set with
  | nil => simp [delEpoll, watched]
  | cons p rest ih =>
      simp only [delEpoll, watched_cons]
      split
      · next hfd =>
          cases hp : set p.fd with
          | none =>
              simp only [ih]
              by_cases heq : p.fd = fd
              · simp [← heq, hp]
              · simp [heq]
          | some r =>
              simp only [ih]
              by_cases heq : p.fd = fd
              · subst heq
                have h : -1 < p.fd := hfd
                simp [h]
              · simp [heq, Function.update_of_ne (Ne.symm heq)]
      · next hfd =>
          have hno : ¬ (-1 < fd ∧ p.fd = fd) := by
            rintro ⟨h, heq⟩
            exact hfd (by rw [heq]; exact h)
          simp [ih, hno]

/-- What a call removes is what was registered for a descriptor of its array. -/
theorem mem_delEpoll_obs {fds : List PollFd} {set : Fd → Option Registration} {o : Obs} :
    o ∈ (delEpoll f fds set).2 ↔
      ∃ fd r, o = .removed f fd r ∧ watched fds fd ∧ set fd = some r := by
  induction fds generalizing set with
  | nil => simp [delEpoll, watched]
  | cons p rest ih =>
      simp only [delEpoll]
      split
      · next hfd =>
          cases hp : set p.fd with
          | none =>
              simp only [ih]
              constructor
              · rintro ⟨fd, r, ho, hw, hset⟩
                exact ⟨fd, r, ho, watched_cons.mpr (Or.inr hw), hset⟩
              · rintro ⟨fd, r, ho, hw, hset⟩
                rcases watched_cons.mp hw with ⟨-, heq⟩ | hw
                · rw [← heq, hp] at hset
                  simp at hset
                · exact ⟨fd, r, ho, hw, hset⟩
          | some q =>
              simp only [List.mem_cons, ih]
              constructor
              · rintro (rfl | ⟨fd, r, ho, hw, hset⟩)
                · exact ⟨p.fd, q, rfl, watched_cons.mpr (Or.inl ⟨hfd, rfl⟩), hp⟩
                · by_cases heq : fd = p.fd
                  · simp [heq] at hset
                  · rw [Function.update_of_ne heq] at hset
                    exact ⟨fd, r, ho, watched_cons.mpr (Or.inr hw), hset⟩
              · rintro ⟨fd, r, rfl, hw, hset⟩
                by_cases heq : fd = p.fd
                · subst heq
                  rw [hp, Option.some.injEq] at hset
                  exact Or.inl (by rw [hset])
                · refine Or.inr ⟨fd, r, rfl, ?_, ?_⟩
                  · exact (watched_cons.mp hw).resolve_left fun h => heq h.2.symm
                  · rw [Function.update_of_ne heq, hset]
      · next hfd =>
          simp only [ih]
          constructor
          · rintro ⟨fd, r, ho, hw, hset⟩
            exact ⟨fd, r, ho, watched_cons.mpr (Or.inr hw), hset⟩
          · rintro ⟨fd, r, ho, hw, hset⟩
            refine ⟨fd, r, ho, (watched_cons.mp hw).resolve_left ?_, hset⟩
            rintro ⟨h, heq⟩
            exact hfd (by rw [heq]; exact h)

end Del

end Libcr
