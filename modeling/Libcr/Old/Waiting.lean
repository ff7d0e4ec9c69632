import Libcr.Old.Turns

/-!
# What the old scheduler waits for

`Accept`, `Recv` and `Send` add their descriptor to the epoll set once, before they wait for
the first time. Every pass of `Run` resumes every coroutine that waits, which takes its
descriptor out of the set; a call that then finds nothing waits again, but does not add the
descriptor again. Only descriptors of calls that have not been resumed are therefore watched,
and when there is none left `epoll_wait` has nothing to wait for.
-/

namespace Libcr

namespace Old

/-- The coroutine `p` is in the call. -/
def InCall (s : Sched) (p : CoPtr) (call : IoCall) : Prop :=
  ∃ co, s.coroutines p = some co ∧ co.pc.call? = some call

/-- The coroutine `p` waits in the call, and has not been resumed since it added the
descriptor. -/
def FirstWaits (s : Sched) (p : CoPtr) (call : IoCall) : Prop :=
  ∃ co, s.coroutines p = some co ∧ co.pc = .waiting call ∧ call.retries = 0

/-- The descriptor a call of user code is about. -/
def Act.fd? : Act → Option Fd
  | .io _ fd _ _ => some fd
  | .close fd _ => some fd
  | _ => none

/-- Nobody closes or waits for a descriptor that a coroutine is waiting for. -/
def Exclusive (s : Sched) (a : Act) : Prop :=
  ∀ fd, a.fd? = some fd → ∀ p call, InCall s p call → call.fd ≠ fd

/-- The descriptors of first waits are in the epoll set, no two coroutines are in calls on
one descriptor, and no descriptor in the set has been closed. -/
structure Watched (s : Sched) : Prop where
  added : ∀ p call, FirstWaits s p call → (s.epoll call.fd).isSome = true
  unique : ∀ p q call call', InCall s p call → InCall s q call' → call.fd = call'.fd → p = q
  orphans : s.orphans = []

section Steps

variable {s t : Sched} {p : CoPtr} {r : Resumer} {co co' : Coroutine}

theorem FirstWaits.inCall {call : IoCall} (h : FirstWaits s p call) : InCall s p call := by
  obtain ⟨co, hco, hpc, -⟩ := h
  exact ⟨co, hco, by rw [hpc]; rfl⟩

/-- What is known of the coroutine that has moved, and of the others. -/
theorem exists_update {P : Coroutine → Prop} {q : CoPtr}
    (hcos : t.coroutines = Function.update s.coroutines p (some co'))
    (h : ∃ co₁, t.coroutines q = some co₁ ∧ P co₁) :
    q ≠ p ∧ (∃ co₁, s.coroutines q = some co₁ ∧ P co₁) ∨ q = p ∧ P co' := by
  obtain ⟨co₁, hq, hP⟩ := h
  rw [hcos] at hq
  revert hP
  apply forall_update (s := s) (P := fun q co₁ => P co₁ →
    q ≠ p ∧ (∃ co₁, s.coroutines q = some co₁ ∧ P co₁) ∨ q = p ∧ P co') _ _ q co₁ hq
  · exact fun hP => Or.inr ⟨rfl, hP⟩
  · exact fun q co₁ hqp hq hP => Or.inl ⟨hqp, co₁, hq, hP⟩

/-- A coroutine moves within its call or out of it, and does not wait for the first time. -/
theorem Watched.move (h : Watched s)
    (hcos : t.coroutines = Function.update s.coroutines p (some co'))
    (hcall : ∀ call, co'.pc.call? = some call → ∃ call₀, InCall s p call₀ ∧ call₀.fd = call.fd)
    (hfirst : ∀ call, co'.pc = .waiting call → call.retries ≠ 0)
    (hepoll : ∀ fd, (∀ call₀, InCall s p call₀ → call₀.fd ≠ fd) → t.epoll fd = s.epoll fd)
    (horphans : t.orphans = s.orphans) : Watched t where
  added := by
    intro q call hq
    rcases exists_update hcos hq with ⟨hqp, hq⟩ | ⟨-, hwait, hretries⟩
    · -- The descriptor of another coroutine is another one.
      have hfirst : FirstWaits s q call := hq
      have hother : ∀ call₀, InCall s p call₀ → call₀.fd ≠ call.fd :=
        fun call₀ hp hfd => hqp (h.unique q p call call₀ hfirst.inCall hp hfd.symm)
      rw [hepoll call.fd hother]
      exact h.added q call hfirst
    · exact absurd hretries (hfirst call hwait)
  unique := by
    intro q r call call' hq hr hfd
    rcases exists_update hcos hq with ⟨-, hq⟩ | ⟨rfl, hq⟩
    · rcases exists_update hcos hr with ⟨-, hr⟩ | ⟨rfl, hr⟩
      · exact h.unique q r call call' hq hr hfd
      · obtain ⟨call₀, hr₀, hfd₀⟩ := hcall call' hr
        exact h.unique q r call call₀ hq hr₀ (hfd.trans hfd₀.symm)
    · rcases exists_update hcos hr with ⟨-, hr⟩ | ⟨rfl, -⟩
      · obtain ⟨call₀, hq₀, hfd₀⟩ := hcall call hq
        exact h.unique q r call₀ call' hq₀ hr (hfd₀.trans hfd)
      · rfl
  orphans := horphans.trans h.orphans

theorem Watched.gone (h : Watched s) {next : IoNext}
    (hcall : ∃ call₀, InCall s p call₀ ∧ call₀.fd = next.call.fd)
    (hnext : ∀ call, next = .wait call → call.retries ≠ 0) : Watched (s.gone p r co next) := by
  cases next with
  | wait call =>
      refine h.move rfl ?_ (fun call' hcall' => ?_) (fun _ _ => rfl) rfl
      · intro call' hcall'
        obtain rfl := Option.some.inj hcall'
        exact hcall
      · obtain rfl := Pc.waiting.inj hcall'
        exact hnext call rfl
  | loop call =>
      refine h.move rfl ?_ (by simp) (fun _ _ => rfl) rfl
      intro call' hcall'
      obtain rfl := Option.some.inj hcall'
      exact hcall
  | back call value => exact h.move rfl (by simp [Pc.call?]) (by simp) (fun _ _ => rfl) rfl

theorem IoCall.head_ne_wait (call call' : IoCall) : call.head ≠ .wait call' := by
  unfold IoCall.head
  split <;> simp

/-- `EAGAIN` is the only answer that leads back to a wait. -/
theorem IoCall.retries_of_turn (call : IoCall) (ans : Answer) {call' : IoCall}
    (h : (call.turn ans).2 = .wait call') : call'.retries = call.retries + 1 := by
  cases ans with
  | again =>
      obtain rfl := IoNext.wait.inj h
      rfl
  | intr => exact absurd h (call.head_ne_wait call')
  | error => cases h
  | done n =>
      unfold IoCall.turn at h
      dsimp only at h
      split at h
      · cases h
      · split at h
        · cases h
        · dsimp only at h
          split at h
          · cases h
          · exact absurd h (IoCall.head_ne_wait _ _)
      · split at h
        · cases h
        · dsimp only at h
          split at h
          · cases h
          · exact absurd h (IoCall.head_ne_wait _ _)

theorem watched_of_eq (h : Watched s) (hcos : t.coroutines = s.coroutines)
    (hepoll : ∀ q call, FirstWaits s q call → t.epoll call.fd = s.epoll call.fd)
    (horphans : t.orphans = s.orphans) : Watched t where
  added := by
    rintro q call ⟨co₁, hq, hwait⟩
    have hold : FirstWaits s q call := ⟨co₁, hcos ▸ hq, hwait⟩
    rw [hepoll q call hold]
    exact h.added q call hold
  unique := by
    rintro q r call call' ⟨co₁, hq, hcall⟩ ⟨co₂, hr, hcall'⟩
    exact h.unique q r call call' ⟨co₁, hcos ▸ hq, hcall⟩ ⟨co₂, hcos ▸ hr, hcall'⟩
  orphans := horphans.trans h.orphans

/-- A coroutine adds a descriptor that nobody waits for, and waits for it. -/
theorem Watched.startedIo (h : Watched s) {kind : IoKind} {fd : Fd} {len : BitVec 64}
    (hfree : ∀ q call, InCall s q call → call.fd ≠ fd) :
    Watched (s.startedIo p r co kind fd len) := by
  have hsame := s.equipped_same p kind fd len
  have hcos' : (s.startedIo p r co kind fd len).coroutines = Function.update s.coroutines p
      (some { co with
        status := .suspend
        pc := .waiting ⟨kind, p, fd, len, 0, 0⟩ }) := by
    rw [← hsame.coroutines]
    rfl
  have hepoll' : (s.startedIo p r co kind fd len).epoll =
      Function.update s.epoll fd (some ((s.equipped p kind fd len).2, kind.mask)) := by
    rw [← hsame.epoll]
    rfl
  constructor
  · intro q call hq
    rw [hepoll']
    rcases exists_update hcos' hq with ⟨-, hq⟩ | ⟨-, hcall, -⟩
    · have hfirst : FirstWaits s q call := hq
      rw [Function.update_of_ne (hfree q call hfirst.inCall)]
      exact h.added q call hfirst
    · obtain rfl := Pc.waiting.inj hcall
      rw [Function.update_self]
      rfl
  · intro q r call call' hq hr hfd
    rcases exists_update hcos' hq with ⟨-, hq⟩ | ⟨rfl, hq⟩
    · rcases exists_update hcos' hr with ⟨-, hr⟩ | ⟨-, hr⟩
      · exact h.unique q r call call' hq hr hfd
      · obtain rfl := Option.some.inj hr
        exact absurd hfd (hfree q call hq)
    · rcases exists_update hcos' hr with ⟨-, hr⟩ | ⟨rfl, -⟩
      · obtain rfl := Option.some.inj hq
        exact absurd hfd.symm (hfree r call' hr)
      · rfl
  · exact hsame.orphans.trans h.orphans

/-- A coroutine is resumed from its wait, and its descriptor is no longer watched. -/
theorem Watched.wake (h : Watched s) {call : IoCall} (hco : s.coroutines p = some co)
    (hpc : co.pc = .waiting call) (os : List Obs) :
    Watched ({ (s.emit os).resumed p co r with
      epoll := Function.update s.epoll call.fd none }.gone p r
        { co with status := .running } call.head) := by
  have hin : InCall s p call := ⟨co, hco, by rw [hpc]; rfl⟩
  have hepoll : ∀ fd, (∀ call₀, InCall s p call₀ → call₀.fd ≠ fd) →
      Function.update s.epoll call.fd none fd = s.epoll fd :=
    fun fd hfd => Function.update_of_ne (hfd call hin).symm ..
  unfold IoCall.head
  split
  · refine h.move (Function.update_idem ..) ?_ (by simp) hepoll rfl
    intro call' hcall'
    obtain rfl := Option.some.inj hcall'
    exact ⟨call, hin, rfl⟩
  · exact h.move (Function.update_idem ..) (by simp [Pc.call?]) (by simp) hepoll rfl

theorem registered_firstWaits (hinv : Inv s) {fd : Fd} (h : (s.epoll fd).isSome = true) :
    ∃ p call, FirstWaits s p call ∧ call.fd = fd := by
  obtain ⟨r, hr⟩ := Option.isSome_iff_exists.mp h
  obtain ⟨-, -, -, -, p, co, call, hco, hpc, hfd, hretries, -⟩ := hinv.nets.registered fd r hr
  exact ⟨p, call, ⟨co, hco, hpc, hretries⟩, hfd⟩

/-- What is watched is kept right by every step that leaves waiting coroutines alone. -/
theorem Watched.step (hw : Watched s) (hinv : Inv s) {a : Act} (he : Effect s a (.ok t))
    (hok : Exclusive s a) : Watched t := by
  cases he with
  | @spawn arg fn id huser hid hlt =>
      exact hw.move rfl (by simp [Pc.call?]) (by simp) (fun _ _ => rfl) rfl
  | yield => exact hw.move rfl (by simp [Pc.call?]) (by simp) (fun _ _ => rfl) rfl
  | status => exact hw
  | @ioFailed coro co kind fd len ctl huser hrunning hco hfd hfail =>
      have hsame := s.equipped_same coro kind fd len
      exact watched_of_eq hw hsame.coroutines (fun _ call _ => congrFun hsame.epoll call.fd)
        hsame.orphans
  | @ioWait p r co kind fd len hctl hmain hco hpc hfd hnew => exact hw.startedIo (hok fd rfl)
  | @turn p r co call ans hctl hmain hco hpc hfits =>
      have hemit : Watched (s.emit (call.turn ans).1) := watched_of_eq hw rfl (fun _ _ _ => rfl) rfl
      obtain ⟨ret, retries, hcall⟩ := call.turn_call ans
      refine hemit.gone ⟨call, ⟨co, hco, by rw [hpc]; rfl⟩, by rw [hcall]⟩ fun call' hcall' => ?_
      rw [call.retries_of_turn ans hcall']
      exact Nat.succ_ne_zero _
  | @close fd dup huser hfd =>
      -- Nobody waits for the descriptor, so that it is not in the set.
      have hnone : s.epoll fd = none := by
        rw [← Option.not_isSome_iff_eq_none]
        intro hsome
        obtain ⟨q, call, hq, hcall⟩ := registered_firstWaits hinv hsome
        exact hok fd rfl q call hq.inCall hcall
      refine watched_of_eq hw rfl (fun q call hq => ?_) ?_
      · exact Function.update_of_ne (hok fd rfl q call hq.inCall) ..
      · simp [Sched.closed, Sched.sysClose, hnone]
  | @ret p r co hctl hmain hco hpc =>
      have hold : ∀ q co₁, (s.ended p co r).coroutines q = some co₁ →
          s.coroutines q = some co₁ := fun q co₁ hq => (of_update_none hq).2
      constructor
      · rintro q call ⟨co₁, hq, hwait⟩
        exact hw.added q call ⟨co₁, hold q co₁ hq, hwait⟩
      · rintro q r call call' ⟨co₁, hq, hcall⟩ ⟨co₂, hr, hcall'⟩
        exact hw.unique q r call call' ⟨co₁, hold q co₁ hq, hcall⟩ ⟨co₂, hold r co₂ hr, hcall'⟩
      · exact hw.orphans
  | run => exact watched_of_eq hw rfl (fun _ _ _ => rfl) rfl
  | resumeNull => exact hw
  | idle => exact watched_of_eq hw rfl (fun _ _ _ => rfl) rfl
  | enter =>
      exact hw.move (Function.update_idem ..) (by simp [Pc.call?]) (by simp) (fun _ _ => rfl) rfl
  | rejoin =>
      exact hw.move (Function.update_idem ..) (by simp [Pc.call?]) (by simp) (fun _ _ => rfl) rfl
  | wake hres hco hpc => exact hw.wake hco hpc _
  | network => exact watched_of_eq hw rfl (fun _ _ _ => rfl) rfl
  | @forget k hk =>
      rw [hw.orphans] at hk
      cases hk

end Steps

section Runs

variable {s : Sched}

theorem watched_of_reaches (h : Reaches Sched.step Exclusive Sched.new s) : Watched s := by
  have hnew : Watched Sched.new := by
    constructor
    · rintro p call ⟨co, hco, -⟩
      cases hco
    · rintro p q call call' ⟨co, hco, -⟩
      cases hco
    · rfl
  refine h.invariant hnew ?_
  intro u a v hu hw hok hstep
  have hinv : Inv u := Sched.Reached.inv (hu.mono fun _ _ _ => trivial)
  obtain ⟨-, heffect | ⟨f, -, rfl⟩⟩ := hinv.step_cases hstep
  · exact hw.step hinv heffect hok
  · exact watched_of_eq hw rfl (fun _ _ _ => rfl) rfl

/-- A descriptor is watched exactly while one coroutine waits for it that has not been resumed
since it added it, if coroutines do not share descriptors. -/
theorem watched_iff (h : Reaches Sched.step Exclusive Sched.new s) (fd : Fd) :
    (s.epoll fd).isSome = true ↔ ∃! p, ∃ call, FirstWaits s p call ∧ call.fd = fd := by
  have hinv : Inv s := Sched.Reached.inv (h.mono fun _ _ _ => trivial)
  have hw := watched_of_reaches h
  constructor
  · intro hsome
    obtain ⟨p, call, hp, hfd⟩ := registered_firstWaits hinv hsome
    refine ⟨p, ⟨call, hp, hfd⟩, ?_⟩
    rintro q ⟨call', hq, hfd'⟩
    exact hw.unique q p call' call hq.inCall hp.inCall (hfd'.trans hfd.symm)
  · rintro ⟨p, ⟨call, hp, rfl⟩, -⟩
    exact hw.added p call hp

/-- A test for the condition, in reached states: all coroutines are below `nextCo`. -/
def exclusiveTest (s : Sched) (a : Act) : Bool :=
  a.fd?.all fun fd => (List.range s.nextCo).all fun p =>
    ((s.coroutines p).bind fun co => co.pc.call?).all fun call => decide (call.fd ≠ fd)

theorem exclusive_of_test (s : Sched) (a : Act) (h : Reaches Sched.step Exclusive Sched.new s)
    (htest : exclusiveTest s a = true) : Exclusive s a := by
  rintro fd hfd p call ⟨co, hco, hcall⟩
  have hinv : Inv s := Sched.Reached.inv (h.mono fun _ _ _ => trivial)
  have hlt : p ∈ List.range s.nextCo :=
    List.mem_range.mpr (hinv.table.lt_of_live (s.idOf_eq hco))
  rw [exclusiveTest, hfd, Option.all_some, List.all_eq_true] at htest
  have hp := htest p hlt
  rw [hco, Option.bind_some, hcall, Option.all_some] at hp
  exact of_decide_eq_true hp

/-- The first coroutine waits for descriptor 5 and is resumed too early; the second one then
waits for descriptor 6. Only 6 is watched. -/
theorem watched_iff_early :
    ∃ s, Reaches Sched.step Exclusive Sched.new s ∧ (s.epoll 5).isSome = false ∧
      ∃! p, ∃ call, FirstWaits s p call ∧ call.fd = 6 := by
  let acts : List Act := [.spawn 7 8, .spawn 9 10, .run, .next, .io .recv 5 10 none, .next,
    .yield, .network [], .next, .native .again, .next, .io .send 6 10 none]
  obtain ⟨s, hs, htest⟩ := Option.map_eq_some_iff.mp (show
    (exec (tested exclusiveTest Sched.step) Sched.new acts).map (fun s =>
      ((s.epoll 5).isSome, (s.epoll 6).isSome)) = some (false, true) by decide +kernel)
  rw [Prod.mk.injEq] at htest
  obtain ⟨-, hreached⟩ := exec_tested exclusive_of_test (Reaches.refl _) hs
  exact ⟨s, hreached, htest.1, (watched_iff hreached 6).mp htest.2⟩

/-- When `Run` has come to `epoll_wait` and no descriptor in the set has been closed, no call but
that one is possible. -/
theorem step_at_wait (hctl : s.control = .run s.active.length) (horphans : s.orphans = [])
    {a : Act} {t : Sched} (hstep : s.step a = some t) :
    ∃ events, a = .network events ∧
      ∀ e ∈ events, ∃ fd, e.1 = .fd fd ∧ (s.epoll fd).isSome = true := by
  rw [Sched.step, Option.ite_none_left_eq_some, Option.map_eq_some_iff] at hstep
  obtain ⟨-, r, hr, -⟩ := hstep
  cases a with
  | network events =>
      rw [Sched.perform, Option.ite_none_right_eq_some] at hr
      refine ⟨events, rfl, fun e he => ?_⟩
      have hset := hr.1.2 e he
      cases hw : e.1 with
      | fd fd => exact ⟨fd, rfl, by simpa [hw, Sched.watched] using hset⟩
      | orphan k => simp [hw, Sched.watched, horphans] at hset
  | next =>
      rw [Sched.perform, hctl] at hr
      simp at hr
  | forget k => simp [Sched.perform, horphans] at hr
  | _ => simp [Sched.perform, Sched.inUser, Sched.executing, hctl] at hr

/-- When `Run` has come to `epoll_wait`, only an error of it lets `Run` go on exactly if every
coroutine that waits has been resumed since it added its descriptor. -/
theorem run_blocked_iff (h : Reaches Sched.step Exclusive Sched.new s) (hfault : s.fault = none)
    (hctl : s.control = .run s.active.length) :
    (∀ a, (s.step a).isSome = true → a = .network []) ↔ ∀ p call, ¬ FirstWaits s p call := by
  have hw := watched_of_reaches h
  constructor
  · intro hblocked p call hp
    -- An event on the descriptor of the first wait could come.
    let events : List (Watch × BitVec 32) := [(.fd call.fd, epollIn)]
    have hset : ∀ e ∈ events, (s.watched e.1).isSome = true := by
      rintro e he
      obtain rfl := List.mem_singleton.mp he
      simpa [Sched.watched] using hw.added p call hp
    have hperform : s.perform (.network events) = some (s.checkNetwork events) :=
      if_pos ⟨hctl, hset⟩
    have hsome : (s.step (.network events)).isSome = true := by
      rw [Sched.step, hfault, hperform]
      rfl
    exact List.cons_ne_nil _ _ (Act.network.inj (hblocked _ hsome))
  · intro hnone a hstep
    have hinv : Inv s := Sched.Reached.inv (h.mono fun _ _ _ => trivial)
    obtain ⟨t, ht⟩ := Option.isSome_iff_exists.mp hstep
    obtain ⟨events, rfl, hset⟩ := step_at_wait hctl hw.orphans ht
    cases events with
    | nil => rfl
    | cons e rest =>
        obtain ⟨fd, -, hfd⟩ := hset e List.mem_cons_self
        obtain ⟨p, call, hp, -⟩ := registered_firstWaits hinv hfd
        exact absurd hp (hnone p call)

/-- The only coroutine is resumed too early, and `Run` waits for nothing. -/
theorem run_blocked_iff_early :
    ∃ s, Reaches Sched.step Exclusive Sched.new s ∧ s.control = .run s.active.length ∧
      ∀ a, (s.step a).isSome = true → a = .network [] := by
  let acts : List Act := [.spawn 7 8, .run, .next, .io .recv 5 10 none, .network [], .next,
    .native .again]
  obtain ⟨s, hs, htest⟩ := Option.map_eq_some_iff.mp (show
    (exec (tested exclusiveTest Sched.step) Sched.new acts).map (fun s =>
      (s.fault.isNone && decide (s.control = .run s.active.length) && decide (s.nextCo = 2) &&
        (s.coroutines 0).isNone, (s.coroutines 1).map Coroutine.pc)) =
      some (true, some (.waiting ⟨.recv, 1, 5, 10, 0, 1⟩)) by decide +kernel)
  simp only [Prod.mk.injEq, Bool.and_eq_true, decide_eq_true_eq, Option.isNone_iff_eq_none,
    Option.map_eq_some_iff] at htest
  obtain ⟨⟨⟨⟨hfault, hctl⟩, hnext⟩, hnull⟩, co, hco, hpc⟩ := htest
  obtain ⟨-, hreached⟩ := exec_tested exclusive_of_test (Reaches.refl _) hs
  refine ⟨s, hreached, hctl, (run_blocked_iff hreached hfault hctl).mpr ?_⟩
  rintro p call ⟨co', hco', hpc', hretries⟩
  have hinv : Inv s := Sched.Reached.inv (hreached.mono fun _ _ _ => trivial)
  have hlt : p < 2 := hnext ▸ hinv.table.lt_of_live (s.idOf_eq hco')
  obtain rfl | rfl : p = 0 ∨ p = 1 := Nat.le_one_iff_eq_zero_or_eq_one.mp (Nat.lt_succ_iff.mp hlt)
  · rw [hnull] at hco'
    cases hco'
  · obtain rfl := Option.some.inj (hco.symm.trans hco')
    obtain rfl := Pc.waiting.inj (hpc.symm.trans hpc')
    cases hretries

end Runs

end Old

end Libcr
