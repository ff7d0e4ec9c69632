import Libcr.Scheduler.Trace

/-!
# Where the coroutines of the pool are

A pooled coroutine is on the call stack, or idle with its task on the free list,
or asleep in `poll_inner` with its timer item in one list. The list is the active
list or a slot, and the slot lies in the wheel as long as the differences that
`add_timeout` and `takeAllTimeout` store in an `int` do not wrap around.
-/

namespace Libcr

/-- Exactly one of three statements holds. -/
def ExactlyOne (p q r : Prop) : Prop :=
  p ∧ ¬ q ∧ ¬ r ∨ ¬ p ∧ q ∧ ¬ r ∨ ¬ p ∧ ¬ q ∧ r

namespace Sys

/-- The differences a step stores in an `int` fit: a time that is armed lies less
than `2^31` ms after the start of the wheel, and the number of slots to empty is
not cut down to zero. -/
def Unwrapped (s : Sys) : Act → Prop
  | .poll call => call.tick < 2 ^ 63 ∧
      ∀ t, s.curr = some (.worker t) → s.accepts t call →
        s.expireAt t call < 2 ^ 63 ∧
          s.expireAt t call < (s.wheel.restart call.tick).start + 2 ^ 31
  | .iterate _ tick => tick < 2 ^ 63 ∧
      ((s.wheel.restart tick).start ≤ tick →
        ¬ 2 ^ 32 ∣ tick - (s.wheel.restart tick).start + 1)
  | _ => True

/-- A timer item of the coroutine of the task `t` is linked in the list `l`. -/
def Links (s : Sys) (t : TaskId) (l : ListId) (f : FrameId) : Prop :=
  (∃ fr, s.frames f = some fr ∧ fr.coroutine = .worker t) ∧ f ∈ s.lists.seq l

end Sys

/-- The position of the wheel: `start_idx` never runs ahead of the clock. -/
structure Wheel.Sound (w : Wheel) : Prop where
  size_eq : w.size = kTimerSize
  idx_nonneg : 0 ≤ w.startIdx
  idx_le : w.startIdx ≤ w.start
  start_lt : w.start < 2 ^ 63

namespace Wheel.Sound

variable {w : Wheel}

theorem restart (h : w.Sound) {now : Nat} (hnow : now < 2 ^ 63) : (w.restart now).Sound := by
  unfold Wheel.restart
  split
  · exact ⟨h.size_eq, Int.le_refl 0, by simp, hnow⟩
  · exact h

/-- A distance that is not negative gives an offset inside the array. -/
theorem slotIndex_range (h : w.Sound) {d : Int} (h0 : 0 ≤ d) (hd : d < 2 ^ 31)
    (hsum : w.startIdx + d < 2 ^ 63) :
    0 ≤ w.slotIndex d ∧ w.slotIndex d < kTimerSize := by
  have hidx := h.idx_nonneg
  have hsize := w.size_pos
  unfold Wheel.slotIndex
  rw [toInt64_of_range (by omega) hsum, Int.tmod_eq_emod_of_nonneg (by omega), ← h.size_eq]
  exact ⟨Int.emod_nonneg _ (by omega), Int.emod_lt_of_pos _ (by omega)⟩

/-- The number of slots to empty, when it is not cut down to zero and not negative. -/
theorem takeCount_range {now : Nat} (hle : w.start ≤ now)
    (hdvd : ¬ 2 ^ 32 ∣ now - w.start + 1) (hneg : 0 ≤ w.takeCount now) :
    1 ≤ w.takeCount now ∧ w.takeCount now ≤ (now : Int) - w.start + 1 := by
  have hsize := w.size_pos
  have hupper : toInt32 ((now : Int) - w.start + 1) ≤ (now : Int) - w.start + 1 :=
    toInt32_le (by omega)
  have hzero : toInt32 ((now : Int) - w.start + 1) ≠ 0 := by
    apply toInt32_ne_zero
    intro hd
    apply hdvd
    omega
  unfold Wheel.takeCount at hneg ⊢
  dsimp only at hneg ⊢
  split
  · next hcap => exact ⟨by omega, by omega⟩
  · next hcap =>
      rw [if_neg hcap] at hneg
      exact ⟨by omega, hupper⟩

/-- Emptying at least one slot keeps the wheel sound. -/
theorem takeAllTimeout (h : w.Sound) {α : Type} [DecidableEq α] (L : TimerLists α)
    {now : Nat} (hnow : now < 2 ^ 63) {result : ListId}
    (hcnt : (w.restart now).start ≤ now → ¬ 2 ^ 32 ∣ now - (w.restart now).start + 1) :
    (takeAllTimeout w L now result).1.Sound := by
  have hr := h.restart hnow
  unfold Libcr.takeAllTimeout
  dsimp only
  split
  · exact hr
  · next hle =>
      split
      · exact hr
      · next hneg =>
          have hstart : (w.restart now).start ≤ now := Nat.le_of_not_lt hle
          obtain ⟨h1, h2⟩ := takeCount_range hstart (hcnt hstart) (by omega)
          have hidx := hr.idx_nonneg
          have hidx' := hr.idx_le
          rw [toInt64_of_range (by omega) (by omega)]
          exact ⟨hr.size_eq, by dsimp only; omega, by dsimp only; omega, hnow⟩

end Wheel.Sound

/-- The slots that hold items lie in the wheel. -/
structure Sys.InWheel (s : Sys) : Prop where
  sound : s.wheel.Sound
  slots : ∀ f k, s.lists.parent f = some (.slot k) → 0 ≤ k ∧ k < kTimerSize

/-- A step without wrap-around keeps every item in the wheel. -/
theorem Transition.inWheel {n : Nat} {s s' : Sys} {a : Act} (htr : Transition n s a s')
    (h : Inv n s) (ha : s.Unwrapped a) (hW : s.InWheel) : s'.InWheel := by
  cases htr with
  | reject => exact ⟨hW.sound.restart ha.1, hW.slots⟩
  | @suspend _ t call last ht hcurr hpc hlast hfix hreg hacc =>
      have hr := hW.sound.restart ha.1
      refine ⟨hr, ?_⟩
      intro f k hk
      by_cases hf : f = s.nextFrame
      · subst hf
        simp only [Sys.suspended, LinkedSeqs.append, Function.update_self,
          Option.some.injEq, ListId.slot.injEq] at hk
        rw [← hk]
        obtain ⟨hlt, hexp⟩ := ha.2 t hcurr hacc
        obtain ⟨h1, h2, -⟩ := hacc
        have hidx := hr.idx_le
        have hdist : s.distanceAt t call =
            (s.expireAt t call : Int) - (s.wheel.restart call.tick).start :=
          toInt32_of_range (by omega) (by omega)
        exact hr.slotIndex_range (by omega) (by omega) (by omega)
      · simp only [Sys.suspended, LinkedSeqs.append, Function.update_of_ne hf] at hk
        exact hW.slots f k hk
  | @iterate events tick hcurr hpc hset =>
      constructor
      · rw [h.iterate_eq]
        dsimp only
        rw [h.prepared_wheel hpc hset]
        exact hW.sound.takeAllTimeout _ ha.1 ha.2
      · intro f k hk
        rcases h.iterate_parent hpc hset tick f with heq | ⟨-, heq⟩
        · exact hW.slots f k (heq ▸ hk)
        · rw [heq] at hk
          simp at hk
  | @wake f _ _ _ _ =>
      refine ⟨hW.sound, ?_⟩
      intro g k hk
      by_cases hg : g = f
      · simp [Sys.woken, LinkedSeqs.unlink, hg] at hk
      · simp only [Sys.woken, LinkedSeqs.unlink, Function.update_of_ne hg] at hk
        exact hW.slots g k hk
  | _ => exact ⟨hW.sound, hW.slots⟩

theorem inWheel_init {tick : Nat} (htick : tick < 2 ^ 63) (size : Int) :
    (Sys.init tick size).InWheel where
  sound := by
    rw [show (Sys.init tick size).wheel = _ from (created tick size.toNat).wheel]
    exact ⟨rfl, Int.le_refl 0, by simp [Wheel.allocTimer], htick⟩
  slots := by
    rw [show (Sys.init tick size).lists = _ from (created tick size.toNat).lists]
    simp [LinkedSeqs.empty]

theorem Sys.Reached.inWheel {tick : Nat} {size : Int} {s : Sys} (htick : tick < 2 ^ 63)
    (h : Sys.Reached Sys.Unwrapped tick size s) : s.InWheel :=
  h.induction (inWheel_init htick size) fun _ _ _ _ hinv hok htr hW => htr.inWheel hinv hok hW

namespace Inv

variable {n : Nat} {s : Sys}

/-- A linked item belongs to the call its coroutine sleeps in, and is nowhere else. -/
theorem links_spec (h : Inv n s) {t : TaskId} {l : ListId} {f : FrameId}
    (hlinks : s.Links t l f) :
    (∃ ph, s.pc (.worker t) = .polling ph f) ∧ (l = .active ∨ ∃ k, l = .slot k) ∧
      (s.lists.seq l).count f = 1 ∧ ∀ l', f ∈ s.lists.seq l' → l' = l := by
  obtain ⟨⟨fr, hfr, hco⟩, hmem⟩ := hlinks
  obtain ⟨u, -, hco', ph, hpoll⟩ := h.frames.owner f fr hfr
  rw [hco, CoId.worker.injEq] at hco'
  subst hco'
  refine ⟨⟨ph, hpoll⟩, h.frames.lists f l ((h.frames.linked.mem_iff _ _).mp hmem), ?_, ?_⟩
  · exact List.count_eq_one_of_mem (h.frames.linked.nodup l) hmem
  · exact fun l' hmem' => h.frames.linked.eq_of_mem hmem' hmem

/-- A coroutine that sleeps in `poll_inner` has its timer item linked. -/
theorem exists_links (h : Inv n s) {t : TaskId} (ht : t < n) {ph : Phase} {f : FrameId}
    (hpoll : s.pc (.worker t) = .polling ph f) : ∃ l, s.Links t l f := by
  obtain ⟨fr, hfr, hco⟩ := h.frames.asleep t ht ph f hpoll
  have hlive := h.frames.live_iff f
  rw [hfr] at hlive
  obtain ⟨l, hl⟩ := Option.isSome_iff_exists.mp hlive
  exact ⟨l, ⟨fr, hfr, hco⟩, (h.frames.linked.mem_iff _ _).mpr hl⟩

/-- The place of a pooled coroutine decides where it is found. -/
theorem exactlyOne (h : Inv n s) {free : List TaskId}
    (hmem : ∀ t, t ∈ free ↔ t < n ∧ s.pc (.worker t) = .waiting) {t : TaskId} (ht : t < n) :
    ExactlyOne (.worker t ∈ s.callstack) (t ∈ free) (∃ l f, s.Links t l f) := by
  have hstack := h.discipline.mem_iff t ht
  have hfree := hmem t
  have hlinks : (∃ l f, s.Links t l f) ↔ ∃ ph f, s.pc (.worker t) = .polling ph f := by
    constructor
    · rintro ⟨l, f, hl⟩
      obtain ⟨ph, hpoll⟩ := (h.links_spec hl).1
      exact ⟨ph, f, hpoll⟩
    · rintro ⟨ph, f, hpoll⟩
      obtain ⟨l, hl⟩ := h.exists_links ht hpoll
      exact ⟨l, f, hl⟩
  have hfits := h.discipline.worker_fits t ht
  unfold ExactlyOne
  rw [hstack, hfree, hlinks]
  cases hpc : s.pc (.worker t) <;> simp_all [Pc.onStack, Pc.ofWorker]

end Inv

/-- In every run without wrap-around, whenever user code or the event loop has
control: the main coroutine is at the bottom of the call stack, the coroutines on
the stack are distinct and the one on top is running; and each coroutine of the
pool is on the call stack, or idle on the free list, or asleep in `poll_inner` with its
timer item linked once, in the active list or in one slot of the wheel. -/
theorem scheduling_places {tick : Nat} {size : Int} {s : Sys} (htick : tick < 2 ^ 63)
    (h : Sys.Reached Sys.Unwrapped tick size s) :
    s.callstack.head? = some .main ∧ s.callstack.Nodup ∧
    (∃ c, s.curr = some c ∧ (s.pc c).isRunning) ∧
    ∃ free : List TaskId, Chain (fun t => (s.tasks t).next) s.pool.free free ∧
      ∀ t < size.toNat,
        ExactlyOne (.worker t ∈ s.callstack) (t ∈ free) (∃ l f, s.Links t l f) ∧
        (t ∈ free → s.pc (.worker t) = .waiting ∧ (s.tasks t).state = .waiting) ∧
        ∀ l f, s.Links t l f →
          (∃ ph, s.pc (.worker t) = .polling ph f) ∧
          (l = .active ∨ ∃ k : Int, l = .slot k ∧ 0 ≤ k ∧ k < kTimerSize) ∧
          (s.lists.seq l).count f = 1 ∧ ∀ l', f ∈ s.lists.seq l' → l' = l := by
  have hinv := h.inv
  have hW := h.inWheel htick
  have hne : s.callstack ≠ [] := List.ne_nil_of_length_pos hinv.discipline.length_pos
  have hc : s.curr = some (s.callstack.getLast hne) := List.getLast?_eq_some_getLast hne
  obtain ⟨free, hchain, -, hmem, -⟩ := hinv.pool.free
  refine ⟨hinv.discipline.bottom, hinv.discipline.nodup,
    ⟨_, hc, hinv.discipline.top _ hc⟩, free, hchain, ?_⟩
  intro t ht
  refine ⟨hinv.exactlyOne hmem ht, ?_, ?_⟩
  · intro hfree
    have hwait := ((hmem t).mp hfree).2
    exact ⟨hwait, by rw [hinv.pool.state t ht, if_pos hwait]⟩
  · intro l f hlinks
    obtain ⟨hpoll, hlist, hcount, hunique⟩ := hinv.links_spec hlinks
    refine ⟨hpoll, ?_, hcount, hunique⟩
    rcases hlist with rfl | ⟨k, rfl⟩
    · exact Or.inl rfl
    · have hparent := (hinv.frames.linked.mem_iff _ _).mp hlinks.2
      exact Or.inr ⟨k, rfl, hW.slots f k hparent⟩

/-- A task that polls ten milliseconds from the start of the wheel is asleep with
its item in one slot. -/
theorem scheduling_places_polling :
    ∃ s, Sys.Reached Sys.Unwrapped 1000 1 s ∧ s.callstack.head? = some .main ∧
      s.pc (.worker 0) = .polling .fn 0 := by
  have hstep : (Sys.init 1000 1).step (.newTask plainAttr) =
      some ((Sys.init 1000 1).newTask .main .main plainAttr).1 := rfl
  obtain ⟨s, hs⟩ := Option.isSome_iff_exists.mp (show
    (((Sys.init 1000 1).newTask .main .main plainAttr).1.step
      (.poll (plainPoll 5 10 1000))).isSome from rfl)
  have hreached : Sys.Reached Sys.Unwrapped 1000 1 s := by
    refine ((Reaches.refl _).snoc trivial hstep).snoc ?_ hs
    refine ⟨by decide, ?_⟩
    intro t ht _
    obtain rfl : 0 = t := CoId.worker.inj (Option.some.inj ht)
    exact ⟨by decide, by decide⟩
  refine ⟨s, hreached, (scheduling_places (by decide) hreached).1, ?_⟩
  have hmap := congrArg (Option.map fun s => s.pc (.worker 0)) hs
  exact (Option.some.inj hmap).symm

/-- When the clock has moved on by `2^31` ms since the wheel was made, the item of a
task that polls is linked 23638 places in front of the array of slots. -/
theorem scheduling_places_wrapped :
    ∃ s, Sys.Reached always 1000 1 s ∧ s.pc (.worker 0) = .polling .fn 0 ∧
      0 ∈ s.lists.seq (.slot (-23638)) ∧ 0 ∉ s.lists.seq .active ∧
      ∀ k : Int, 0 ≤ k → k < kTimerSize → 0 ∉ s.lists.seq (.slot k) := by
  obtain ⟨s, hs, hp⟩ := exec_reached_of 1000 1
    [.newTask plainAttr, .poll (plainPoll 5 10 (1000 + 2 ^ 31))]
    (fun s => decide (s.pc (.worker 0) = .polling .fn 0) &&
      decide (s.lists.parent 0 = some (.slot (-23638)))) rfl
  simp only [Bool.and_eq_true, decide_eq_true_eq] at hp
  have hlinked := hs.inv.frames.linked
  refine ⟨s, hs, hp.1, (hlinked.mem_iff _ _).mpr hp.2, ?_, ?_⟩
  · rw [hlinked.mem_iff, hp.2]
    simp
  · intro k hk _ hmem
    rw [hlinked.mem_iff, hp.2, Option.some.injEq, ListId.slot.injEq] at hmem
    omega

end Libcr
