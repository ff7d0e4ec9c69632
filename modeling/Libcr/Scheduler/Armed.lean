import Libcr.Timer.WheelInvariant
import Libcr.Scheduler.Trace

/-!
# The timers of suspended calls

As long as the differences that `add_timeout` and `takeAllTimeout` store in an
`int` are the true ones, the wheel holds the timer items of the suspended
`poll_inner` calls, each in the slot of its `expire`. An iteration then finds
exactly the calls whose time has come.
-/

namespace Libcr

namespace Sys

/-- The `expire` field of the timer item of a call. -/
def expireOf (s : Sys) (f : FrameId) : Nat := ((s.frames f).map PollFrame.expire).getD 0

/-- The clock moves by less than `2^31 - 1` ms between two iterations, and a time that
is armed lies less than `2^31` ms after the last iteration. -/
def Paced (s : Sys) : Act → Prop
  | .poll call => ∀ t, s.curr = some (.worker t) → s.accepts t call →
      s.expireAt t call < 2 ^ 63 ∧ s.expireAt t call < s.wheel.start + 2 ^ 31
  | .iterate _ tick => tick < 2 ^ 63 ∧ tick < s.wheel.start + (2 ^ 31 - 1)
  | _ => True

/-- The wheel holds the items of suspended calls in the slots of their times. -/
def Armed (s : Sys) : Prop := ∃ pending, Holds s.wheel s.lists s.expireOf pending

end Sys

theorem Sys.expireOf_eq {s : Sys} {f : FrameId} {fr : PollFrame} (h : s.frames f = some fr) :
    s.expireOf f = fr.expire := by
  simp [Sys.expireOf, h]

namespace Inv

variable {n : Nat} {s : Sys} {pending : List FrameId}

/-- At the head of the event loop the pending items are those of the live calls. -/
theorem mem_pending_iff (h : Inv n s) (hpc : s.pc .main = .loopHead)
    (hholds : Holds s.wheel s.lists s.expireOf pending) {f : FrameId} :
    f ∈ pending ↔ (s.frames f).isSome := by
  rw [← h.frames.live_iff f, Option.isSome_iff_exists]
  constructor
  · intro hf
    exact ⟨_, hholds.parent_of_mem hf⟩
  · rintro ⟨l, hl⟩
    rcases h.frames.lists f l hl with rfl | ⟨k, rfl⟩
    · rw [← h.frames.linked.mem_iff, h.frames.active (by simp [hpc])] at hl
      simp at hl
    · exact hholds.mem_of_parent hl

/-- The preparation of a batch of events takes the items it activates off the wheel. -/
theorem holds_prepared (h : Inv n s) (hpc : s.pc .main = .loopHead) {events : Sys.Events}
    (hset : ∀ e ∈ events, (s.epollSet e.1).isSome)
    (hholds : Holds s.wheel s.lists s.expireOf pending) :
    Holds (s.prepared events).wheel (s.prepared events).lists s.expireOf
      (pending.filter fun f => f ∉ targets s.epollSet events) := by
  have hp := h.prepared hpc hset
  rw [h.prepared_wheel hpc hset]
  refine
    { linked := hp.linked
      start_pos := hholds.start_pos
      start_lt := hholds.start_lt
      idx_nonneg := hholds.idx_nonneg
      idx_le := hholds.idx_le
      window := fun f hf => hholds.window f (List.mem_of_mem_filter hf)
      slots := ?_
      nodup := hholds.nodup.filter _ }
  intro k
  rw [hp.others _ (by simp)]
  simp only [Sys.emit, hholds.slots]
  rw [List.filter_comm]

/-- What an iteration finds expired, and what it leaves in the wheel. -/
theorem holds_due (h : Inv n s) (hpc : s.pc .main = .loopHead) {events : Sys.Events}
    (hset : ∀ e ∈ events, (s.epollSet e.1).isSome)
    (hholds : Holds s.wheel s.lists s.expireOf pending) {tick : Nat}
    (hpaced : s.Paced (.iterate events tick)) :
    (∃ pending', Holds (takeAllTimeout (s.prepared events).wheel (s.prepared events).lists
        tick .timeout).1 (takeAllTimeout (s.prepared events).wheel
        (s.prepared events).lists tick .timeout).2 s.expireOf pending') ∧
      (s.due events tick).Nodup ∧
      ∀ f, f ∈ s.due events tick ↔
        f ∈ pending ∧ f ∉ targets s.epollSet events ∧ s.expireOf f ≤ tick := by
  have hprep := h.holds_prepared hpc hset hholds
  have hwheel := h.prepared_wheel hpc hset
  have hempty := h.prepared_seq_timeout hpc hset
  have hresult : ∀ k, ListId.timeout ≠ .slot k := by simp
  by_cases hnow : s.wheel.start ≤ tick
  · obtain ⟨hafter, -, -, hseq⟩ := hprep.takeAllTimeout (by rwa [hwheel]) hpaced.1
      (by rw [hwheel]; exact hpaced.2) hresult
    refine ⟨⟨_, hafter⟩, ?_, ?_⟩
    · rw [Sys.due, hseq, hempty, List.nil_append]
      exact nodup_bucketed hprep.nodup
    · intro f
      rw [Sys.due, hseq, hempty, List.nil_append, mem_bucketed]
      constructor
      · rintro ⟨hf, -, hdue⟩
        have hle := (hprep.due_iff (by rwa [hwheel]) hf).mp hdue
        rw [List.mem_filter, decide_eq_true_eq] at hf
        exact ⟨hf.1, hf.2, hle⟩
      · rintro ⟨hf, hnot, hle⟩
        have hmem : f ∈ pending.filter fun f => f ∉ targets s.epollSet events := by
          rw [List.mem_filter, decide_eq_true_eq]
          exact ⟨hf, hnot⟩
        exact ⟨hmem, (hprep.window f hmem).1,
          (hprep.due_iff (by rwa [hwheel]) hmem).mpr hle⟩
  · -- The clock is behind the wheel, and nothing is taken.
    have htake : takeAllTimeout (s.prepared events).wheel (s.prepared events).lists tick
        .timeout = ((s.prepared events).wheel, (s.prepared events).lists) := by
      have hlt : tick < (s.prepared events).wheel.start := by
        rw [hwheel]
        omega
      simp [takeAllTimeout, Wheel.restart_of_pos hprep.start_pos, hlt]
    refine ⟨⟨_, by rw [htake]; exact hprep⟩, ?_, ?_⟩
    · rw [Sys.due, htake, hempty]
      exact List.nodup_nil
    · intro f
      rw [Sys.due, htake, hempty]
      constructor
      · simp
      · rintro ⟨hf, -, hle⟩
        have hlo := (hholds.window f hf).1
        omega

/-- The calls whose time has come are found by the iteration, unless an event has
already activated them. -/
theorem mem_due_iff (h : Inv n s) (hpc : s.pc .main = .loopHead) {events : Sys.Events}
    (hset : ∀ e ∈ events, (s.epollSet e.1).isSome) (harmed : s.Armed) {tick : Nat}
    (hpaced : s.Paced (.iterate events tick)) (f : FrameId) :
    f ∈ s.due events tick ↔ f ∉ targets s.epollSet events ∧
      ∃ fr, s.frames f = some fr ∧ fr.expire ≤ tick := by
  obtain ⟨pending, hholds⟩ := harmed
  rw [(h.holds_due hpc hset hholds hpaced).2.2 f, h.mem_pending_iff hpc hholds]
  constructor
  · rintro ⟨hlive, hnot, hle⟩
    obtain ⟨fr, hfr⟩ := Option.isSome_iff_exists.mp hlive
    rw [Sys.expireOf_eq hfr] at hle
    exact ⟨hnot, fr, hfr, hle⟩
  · rintro ⟨hnot, fr, hfr, hle⟩
    rw [Sys.expireOf_eq hfr]
    exact ⟨by simp [hfr], hnot, hle⟩

theorem nodup_due (h : Inv n s) (hpc : s.pc .main = .loopHead) {events : Sys.Events}
    (hset : ∀ e ∈ events, (s.epollSet e.1).isSome) (harmed : s.Armed) {tick : Nat}
    (hpaced : s.Paced (.iterate events tick)) : (s.due events tick).Nodup := by
  obtain ⟨pending, hholds⟩ := harmed
  exact (h.holds_due hpc hset hholds hpaced).2.1

end Inv

/-- An iteration does not change the time of any call. -/
theorem Inv.expireOf_iterate {n : Nat} {s : Sys} (h : Inv n s) (hpc : s.pc .main = .loopHead)
    {events : Sys.Events} (hset : ∀ e ∈ events, (s.epollSet e.1).isSome) (tick : Nat)
    (f : FrameId) : (s.iterate events tick).expireOf f = s.expireOf f := by
  cases hfr : s.frames f with
  | none => simp [Sys.expireOf, hfr, h.iterate_dead hpc hset tick hfr]
  | some fr =>
      obtain ⟨fr', hfr', -, -, hexp, -⟩ := h.iterate_frame hpc hset tick hfr
      rw [Sys.expireOf_eq hfr', Sys.expireOf_eq hfr, hexp]

/-- A paced step keeps the timers armed. -/
theorem Transition.armed {n : Nat} {s s' : Sys} {a : Act} (htr : Transition n s a s')
    (h : Inv n s) (ha : s.Paced a) (harmed : s.Armed) : s'.Armed := by
  obtain ⟨pending, hholds⟩ := harmed
  have hrestart := Wheel.restart_of_pos hholds.start_pos
  have hlinked := (htr.inv h).frames.linked
  cases htr with
  | reject =>
      refine ⟨pending, ?_⟩
      simp only [Sys.rejected, hrestart]
      exact hholds
  | @suspend ph t call last ht hcurr hpc hlast hfix hreg hacc =>
      have hunlinked := h.frame_unlinked
      obtain ⟨hlt, hspan⟩ := ha t hcurr hacc
      obtain ⟨hstart, hle, hdist⟩ := hacc
      rw [hrestart] at hstart
      have hdistance : s.distanceAt t call = (s.expireAt t call : Int) - s.wheel.start := by
        unfold Sys.distanceAt
        rw [hrestart]
        exact toInt32_of_range (by omega) (by omega)
      have hslot : s.wheel.slotIndex (s.distanceAt t call) =
          s.wheel.slotOf (s.expireAt t call) := by
        rw [hdistance]
        exact Wheel.slotIndex_eq_slotOf hholds.idx_nonneg hholds.idx_le (by omega) hlt
      have hself : (s.suspended last ph t call).expireOf s.nextFrame = s.expireAt t call := by
        simp [Sys.expireOf, Sys.suspended, Sys.frameAt]
      have hnew : Holds s.wheel s.lists (s.suspended last ph t call).expireOf pending := by
        refine hholds.congr hholds.linked (fun _ => rfl) ?_
        intro f hf
        have hne : f ≠ s.nextFrame := by
          rintro rfl
          rw [hholds.parent_of_mem hf] at hunlinked
          simp at hunlinked
        simp [Sys.expireOf, Sys.suspended, Function.update_of_ne hne]
      have happend := hnew.append hunlinked (by rw [hself]; omega) (by rw [hself]; omega)
      rw [hself, ← hslot] at happend
      have hwheel : (s.suspended last ph t call).wheel = s.wheel := hrestart call.tick
      have hlists : (s.suspended last ph t call).lists = s.lists.append
          (.slot (s.wheel.slotIndex (s.distanceAt t call))) s.nextFrame := by
        rw [← hrestart call.tick]
        rfl
      refine ⟨pending ++ [s.nextFrame], ?_⟩
      rw [hwheel, hlists]
      exact happend
  | @iterate events tick hcurr hpc hset =>
      obtain ⟨⟨pending', hafter⟩, -⟩ := h.holds_due hpc hset hholds ha
      refine ⟨pending', ?_⟩
      have hwheel : (s.iterate events tick).wheel = (takeAllTimeout
          (s.prepared events).wheel (s.prepared events).lists tick .timeout).1 := by
        rw [h.iterate_eq]
      rw [hwheel]
      refine hafter.congr hlinked ?_ fun f _ => h.expireOf_iterate hpc hset tick f
      intro k
      rw [h.iterate_eq]
      simp [LinkedSeqs.splice]
  | @wake f _ fr t _ hcurr hpc hactive hframe =>
      have hparent : s.lists.parent f = some .active :=
        (h.frames.linked.mem_iff _ _).mp (by simp [hactive])
      refine ⟨pending, hholds.congr hlinked ?_ ?_⟩
      · intro k
        simp [Sys.woken, LinkedSeqs.unlink]
      · intro g hg
        have hne : g ≠ f := by
          rintro rfl
          rw [hholds.parent_of_mem hg] at hparent
          simp at hparent
        simp [Sys.expireOf, Sys.woken, Function.update_of_ne hne]
  | _ => exact ⟨pending, hholds⟩

/-- The wheel of a new thread holds nothing. -/
theorem armed_init {tick : Nat} (hpos : 0 < tick) (hlt : tick < 2 ^ 63) (size : Int) :
    (Sys.init tick size).Armed := by
  have hc := created tick size.toNat
  refine ⟨[], ?_⟩
  rw [show (Sys.init tick size).wheel = _ from hc.wheel,
    show (Sys.init tick size).lists = _ from hc.lists]
  exact Holds.allocTimer _ hpos hlt LinkedSeqs.empty_wellLinked (fun _ => rfl) _

theorem Sys.Reached.armed {tick : Nat} {size : Int} {s : Sys} (hpos : 0 < tick)
    (hlt : tick < 2 ^ 63) (h : Sys.Reached Sys.Paced tick size s) : s.Armed :=
  h.induction (armed_init hpos hlt size) fun _ _ _ _ hinv hok htr harmed =>
    htr.armed hinv hok harmed

end Libcr
