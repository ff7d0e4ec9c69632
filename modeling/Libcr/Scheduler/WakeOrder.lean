import Libcr.Scheduler.WakeUp

/-!
# The order in which suspended calls are woken

An iteration of the event loop first puts the calls that events were delivered to on
the active list, in the order of their first events. Behind them come those whose time
has come, in the order of their times, and in the order in which they were suspended
where times are equal: a slot of the wheel is filled at its end, and the slots are
emptied one after the other. The loop that empties the active list keeps this order.
-/

namespace Libcr

/-- The suspensions that a trace shows the end of, in order. -/
def processedOf (os : List Obs) : List FrameId :=
  os.filterMap fun o =>
    match o with
    | .processed f => some f
    | _ => none

theorem processedOf_append (os os' : List Obs) :
    processedOf (os ++ os') = processedOf os ++ processedOf os' :=
  List.filterMap_append

theorem processedOf_of_off {os : List Obs} (hoff : ∀ o ∈ os, o.ofFrame = none) :
    processedOf os = [] := by
  rw [processedOf, List.filterMap_eq_nil_iff]
  intro o ho
  have hnone := hoff o ho
  cases o with
  | processed f => simp [Obs.ofFrame] at hnone
  | _ => rfl

section Drain

variable {n : Nat} {s s' s₁ s₂ : Sys}

/-- A step between two calls of `epoll_wait` takes what it processes from the front of
the active list. -/
theorem WakeStep.active_eq {os : List Obs} (hstep : WakeStep s s' os) :
    s.lists.seq .active = processedOf os ++ s'.lists.seq .active := by
  cases hstep with
  | other hframes hactive hoff => rw [processedOf_of_off hoff, hactive, List.nil_append]
  | @suspend fr os₁ os₂ hframes hnext hactive hoff₁ hoff₂ =>
      have hnone : processedOf (os₁ ++ .suspended s.nextFrame :: os₂) = [] := by
        rw [processedOf_append, processedOf_of_off hoff₁]
        change processedOf os₂ = []
        exact processedOf_of_off hoff₂
      rw [hnone, hactive, List.nil_append]
  | @wake f os hlive hframes hactive hoff =>
      have hone : processedOf (.processed f :: os) = [f] :=
        congrArg (f :: ·) (processedOf_of_off hoff)
      rw [hone, hactive, List.singleton_append]

/-- The loop that empties the active list goes through it from the front, whatever the
coroutines that it resumes do. -/
theorem drain_in_order (h : Inv n s₁)
    (hrun : Reaches Sys.step (fun _ a => a.waits = false) s₁ s₂) :
    Inv n s₂ ∧ ∃ seg, s₂.trace = s₁.trace ++ seg ∧
      s₁.lists.seq .active = processedOf seg ++ s₂.lists.seq .active := by
  refine Reaches.invariant (P := fun u => Inv n u ∧ ∃ seg, u.trace = s₁.trace ++ seg ∧
    s₁.lists.seq .active = processedOf seg ++ u.lists.seq .active) hrun ⟨h, [], ?_, ?_⟩ ?_
  · simp
  · rfl
  · rintro u a v - ⟨hu, seg, htrace, hactive⟩ ha huv
    have htr := hu.step_transition huv
    obtain ⟨os, hos, hstep⟩ := htr.wakeStep ha
    refine ⟨htr.inv hu, seg ++ os, ?_, ?_⟩
    · rw [hos, htrace, List.append_assoc]
    · rw [hactive, hstep.active_eq, processedOf_append, List.append_assoc]

end Drain

theorem eraseDups_concat {α : Type*} [BEq α] [LawfulBEq α] {xs : List α} {a : α} :
    (a ∈ xs → (xs ++ [a]).eraseDups = xs.eraseDups) ∧
      (a ∉ xs → (xs ++ [a]).eraseDups = xs.eraseDups ++ [a]) := by
  rw [List.eraseDups_append]
  constructor
  · intro ha
    simp [List.removeAll, ha]
  · intro ha
    simp [List.removeAll, ha, List.eraseDups_cons]

namespace Inv

variable {n : Nat} {s : Sys}

/-- The calls that events were delivered to stand on the active list in the order of their
first events. -/
theorem prepared_active (h : Inv n s) (hpc : s.pc .main = .loopHead) {events : Sys.Events}
    (hset : ∀ e ∈ events, (s.epollSet e.1).isSome) :
    (s.prepared events).lists.seq .active = (targets s.epollSet events).eraseDups := by
  induction events using List.reverseRecOn with
  | nil => exact h.frames.active (by simp [hpc])
  | append_singleton events e ih =>
      have hset' : ∀ e ∈ events, (s.epollSet e.1).isSome :=
        fun e he => hset e (List.mem_append_left _ he)
      have hprep := h.prepared hpc hset'
      obtain ⟨r, fr, hr, hfr⟩ := h.exists_frame hset e (by simp)
      obtain ⟨fr', hfr', -, -, -, hflag⟩ := hprep.live _ fr hfr
      have hreg : (s.prepared events).epollSet e.1 = some r := by
        rw [hprep.rest]
        exact hr
      have hstep : s.prepared (events ++ [e]) =
          (s.prepared events).preparePollEvent r e.2 := by
        simp only [Sys.prepared, Sys.prepareAll, List.foldl_concat] at hreg ⊢
        rw [hreg]
      rw [hstep, targets_concat hr]
      by_cases hmem : r.frame ∈ targets s.epollSet events
      · rw [eraseDups_concat.1 hmem, ← ih hset']
        simp [Sys.preparePollEvent, hfr', hflag, hmem, Sys.setFrame, Sys.emit]
      · have hnot : r.frame ∉ (s.prepared events).lists.seq .active :=
          fun hin => hmem ((hprep.active _).mp hin)
        have hunlinked := TimerLists.parent_removeFromLink_self (s.prepared events).lists r.frame
        rw [eraseDups_concat.2 hmem, ← ih hset']
        simp [Sys.preparePollEvent, hfr', hflag, hmem, Sys.setFrame, Sys.emit,
          TimerLists.addTail_of_unlinked hunlinked, LinkedSeqs.append,
          TimerLists.seq_removeFromLink hprep.linked, List.erase_of_not_mem hnot]

end Inv

/-- The calls in each slot of the wheel stand in the order in which they were made. -/
def Sys.SlotsInOrder (s : Sys) : Prop := ∀ k, (s.lists.seq (.slot k)).Pairwise (· < ·)

namespace Inv

variable {n : Nat} {s : Sys}

theorem prepared_slot (h : Inv n s) (hpc : s.pc .main = .loopHead) {events : Sys.Events}
    (hset : ∀ e ∈ events, (s.epollSet e.1).isSome) (k : Int) :
    ((s.prepared events).lists.seq (.slot k)).Sublist (s.lists.seq (.slot k)) := by
  rw [(h.prepared hpc hset).others _ (by simp)]
  exact List.filter_sublist

/-- An iteration only takes calls out of the slots. -/
theorem iterate_slot (h : Inv n s) (hpc : s.pc .main = .loopHead) {events : Sys.Events}
    (hset : ∀ e ∈ events, (s.epollSet e.1).isSome) (tick : Nat) (k : Int) :
    ((s.iterate events tick).lists.seq (.slot k)).Sublist (s.lists.seq (.slot k)) := by
  have hprep := h.prepared_slot hpc hset k
  obtain ⟨cnt, -, hlists⟩ := takeAllTimeout_lists (s.prepared events).wheel
    (s.prepared events).lists tick .timeout
  have hseq : (s.iterate events tick).lists.seq (.slot k) =
      ((s.prepared events).lists.spliceAll .timeout
        (visitedSlots ((s.prepared events).wheel.restart tick) cnt)).seq (.slot k) := by
    rw [h.iterate_eq, ← hlists]
    simp [LinkedSeqs.splice]
  rw [hseq]
  by_cases hk : .slot k ∈ visitedSlots ((s.prepared events).wheel.restart tick) cnt
  · rw [LinkedSeqs.seq_spliceAll_of_mem (notMem_visitedSlots (by simp) _ _) hk]
    exact List.nil_sublist _
  · rw [LinkedSeqs.seq_spliceAll_of_ne (by simp) hk]
    exact hprep

/-- A call that stands in a list was made before the next one. -/
theorem lt_nextFrame (h : Inv n s) {l : ListId} {f : FrameId} (hf : f ∈ s.lists.seq l) :
    f < s.nextFrame := by
  by_contra hle
  have hlive := h.frames.live_iff f
  rw [(h.frames.linked.mem_iff _ _).mp hf, h.frames.fresh f (Nat.le_of_not_lt hle)] at hlive
  simp at hlive

end Inv

theorem Transition.slotsInOrder {n : Nat} {s s' : Sys} {a : Act} (htr : Transition n s a s')
    (h : Inv n s) (horder : s.SlotsInOrder) : s'.SlotsInOrder := by
  cases htr with
  | @suspend ph t call last =>
      intro k
      by_cases hk : ListId.slot k =
          .slot ((s.wheel.restart call.tick).slotIndex (s.distanceAt t call))
      · simp only [Sys.suspended, LinkedSeqs.append, hk, Function.update_self]
        rw [List.pairwise_append]
        refine ⟨horder _, List.pairwise_singleton .., ?_⟩
        intro f hf g hg
        rw [List.mem_singleton.mp hg]
        exact h.lt_nextFrame hf
      · simp only [Sys.suspended, LinkedSeqs.append, Function.update_of_ne hk]
        exact horder k
  | iterate hcurr hpc hset =>
      intro k
      exact (horder k).sublist (h.iterate_slot hpc hset _ k)
  | wake =>
      intro k
      simpa [Sys.woken, LinkedSeqs.unlink] using horder k
  | _ => exact horder

theorem Sys.Reached.slotsInOrder {ok : Sys → Act → Prop} {tick : Nat} {size : Int} {s : Sys}
    (h : Sys.Reached ok tick size s) : s.SlotsInOrder := by
  refine h.induction (P := Sys.SlotsInOrder) ?_ fun _ _ _ _ hinv _ htr horder =>
    htr.slotsInOrder hinv horder
  intro k
  rw [show (Sys.init tick size).lists = _ from (created tick size.toNat).lists]
  exact List.Pairwise.nil

/-- `f` is due before `g`: its time is earlier, or it is the same and `f` was suspended
first. -/
def Sys.DueBefore (s : Sys) (f g : FrameId) : Prop :=
  s.expireOf f < s.expireOf g ∨ s.expireOf f = s.expireOf g ∧ f < g

/-- What an iteration finds due comes in the order of the times, and of the suspensions
where these are equal. -/
theorem Inv.due_in_order {n : Nat} {s : Sys} (h : Inv n s) (hpc : s.pc .main = .loopHead)
    {events : Sys.Events} (hset : ∀ e ∈ events, (s.epollSet e.1).isSome) (harmed : s.Armed)
    (horder : s.SlotsInOrder) {tick : Nat} (hpaced : s.Paced (.iterate events tick)) :
    (s.due events tick).Pairwise s.DueBefore := by
  obtain ⟨pending, hholds⟩ := harmed
  have hprep := h.holds_prepared hpc hset hholds
  have hwheel := h.prepared_wheel hpc hset
  by_cases hnow : s.wheel.start ≤ tick
  · have hresult : ∀ k, ListId.timeout ≠ .slot k := by simp
    obtain ⟨-, -, -, hseq⟩ := hprep.takeAllTimeout (by rwa [hwheel]) hpaced.1
      (by rw [hwheel]; exact hpaced.2) hresult
    rw [Sys.due, hseq, h.prepared_seq_timeout hpc hset, List.nil_append]
    apply (pairwise_bucketed ..).imp
    rintro f g (hlt | ⟨heq, hprecedes⟩)
    · exact Or.inl hlt
    · refine Or.inr ⟨heq, ?_⟩
      -- both stand in the slot of their common time
      have hslot : [f, g].Sublist ((s.prepared events).lists.seq
          (.slot ((s.prepared events).wheel.slotOf (s.expireOf g)))) := by
        rw [hprep.slots]
        have hfilter := hprecedes.filter fun a =>
          decide ((s.prepared events).wheel.slotOf (s.expireOf a) =
            (s.prepared events).wheel.slotOf (s.expireOf g))
        simpa [heq] using hfilter
      have hpair := (horder _).sublist (hslot.trans (h.prepared_slot hpc hset _))
      simpa using hpair
  · have htake : s.due events tick = [] := by
      have hlt : tick < (s.prepared events).wheel.start := by
        rw [hwheel]
        omega
      rw [Sys.due]
      simp [takeAllTimeout, Wheel.restart_of_pos hprep.start_pos, hlt,
        h.prepared_seq_timeout hpc hset]
    rw [htake]
    exact List.Pairwise.nil

/-- The order of waking. In a run whose clock readings keep pace, the suspended calls that
an iteration of the event loop wakes are resumed in this order, whatever the coroutines
that are resumed do: first those that events were delivered to, in the order of their
first events; then those whose time has come, by their times, and among equal times in
the order in which they were suspended. -/
theorem wake_order {tick₀ : Nat} {size : Int} {s s₂ : Sys} (hpos : 0 < tick₀)
    (hlt : tick₀ < 2 ^ 63) (h : Sys.Reached Sys.Paced tick₀ size s)
    {events : Sys.Events} {tick : Nat} {s₁ : Sys}
    (hpaced : s.Paced (.iterate events tick)) (hstep : s.step (.iterate events tick) = some s₁)
    (hrun : Reaches Sys.step (fun _ a => a.waits = false) s₁ s₂)
    (hhead : s₂.pc .main = .loopHead) :
    ∃ seg late, s₂.trace = s.trace ++ seg ∧
      processedOf seg = (targets s.epollSet events).eraseDups ++ late ∧
      late.Pairwise s.DueBefore ∧
      ∀ f, f ∈ late ↔ f ∉ targets s.epollSet events ∧
        ∃ fr, s.frames f = some fr ∧ fr.expire ≤ tick := by
  have hinv := h.inv
  have harmed := h.armed hpos hlt
  have htr := hinv.step_transition hstep
  have hinv₁ := htr.inv hinv
  obtain ⟨hinv₂, seg₂, htrace₂, hactive⟩ := drain_in_order hinv₁ hrun
  rw [hinv₂.frames.active (by simp [hhead]), List.append_nil] at hactive
  obtain ⟨seg₁, htrace₁, hrec⟩ := htr.records hinv
  -- the iteration itself resumes nobody
  have hnone : processedOf seg₁ = [] := by
    rw [processedOf, List.filterMap_eq_nil_iff]
    intro o ho
    have hkind := hrec o ho
    cases o with
    | processed f => simp [Act.records] at hkind
    | _ => rfl
  cases htr with
  | iterate hcurr hpc hset =>
      refine ⟨seg₁ ++ seg₂, s.due events tick, ?_, ?_, ?_, ?_⟩
      · rw [htrace₂, htrace₁, List.append_assoc]
      · rw [processedOf_append, hnone, List.nil_append, ← hactive, hinv.iterate_active,
          hinv.prepared_active hpc hset]
      · exact hinv.due_in_order hpc hset harmed h.slotsInOrder hpaced
      · exact hinv.mem_due_iff hpc hset harmed hpaced

/-- A test for the condition on the clock readings. -/
def Sys.pacedTest (s : Sys) : Act → Bool
  | .poll call =>
      match s.curr with
      | some (.worker t) =>
          decide (s.expireAt t call < 2 ^ 63 ∧ s.expireAt t call < s.wheel.start + 2 ^ 31)
      | _ => true
  | .iterate _ tick => decide (tick < 2 ^ 63 ∧ tick < s.wheel.start + (2 ^ 31 - 1))
  | _ => true

theorem paced_of_pacedTest (s : Sys) (a : Act) (h : s.pacedTest a = true) : s.Paced a := by
  cases a with
  | poll call =>
      intro t hcurr _
      simpa [Sys.pacedTest, hcurr] using h
  | iterate events tick => simpa [Sys.pacedTest, Sys.Paced] using h
  | _ => trivial

/-- Three tasks sleep: the first for 8 ms, the two others for 3 ms. -/
def threeAsleep : List Act :=
  [.newTask plainAttr, .poll (plainPoll 5 8 1000), .newTask plainAttr,
    .poll (plainPoll 6 3 1000), .newTask plainAttr, .poll (plainPoll 7 3 1000), .eventloop 1000]

/-- An event for the first of three sleepers comes when the time of the others has come:
it is resumed first, and the others after it. -/
theorem wake_order_three :
    ∃ s s₁ s₂ seg late, exec Sys.step (Sys.init 1000 3) threeAsleep = some s ∧
      s.step (.iterate [(5, 1)] 1004) = some s₁ ∧
      exec Sys.step s₁ [.drain, .ret, .drain, .ret, .drain, .ret, .drain] = some s₂ ∧
      s₂.trace = s.trace ++ seg ∧ processedOf seg = 0 :: late ∧
      late.Pairwise s.DueBefore ∧ 1 ∈ late ∧ 2 ∈ late := by
  obtain ⟨s, hs, hrest⟩ := Option.bind_eq_some_iff.mp (show
    (exec (tested Sys.pacedTest Sys.step) (Sys.init 1000 3) threeAsleep).bind (fun s =>
      (s.step (.iterate [(5, 1)] 1004)).bind fun s₁ =>
        (exec Sys.step s₁ [.drain, .ret, .drain, .ret, .drain, .ret, .drain]).map fun s₂ =>
          (decide (s₂.pc .main = .loopHead) && s.pacedTest (.iterate [(5, 1)] 1004)) &&
            (decide (targets s.epollSet [(5, 1)] = [0]) &&
              ((s.frames 1).any fun fr => decide (fr.expire ≤ 1004)) &&
              ((s.frames 2).any fun fr => decide (fr.expire ≤ 1004)))) = some true by
    decide +kernel)
  obtain ⟨s₁, hs₁, hrest⟩ := Option.bind_eq_some_iff.mp hrest
  obtain ⟨s₂, hs₂, htest⟩ := Option.map_eq_some_iff.mp hrest
  simp only [Bool.and_eq_true, decide_eq_true_eq, Option.any_eq_true] at htest
  obtain ⟨⟨hhead, hpaced⟩, ⟨htargets, hone⟩, htwo⟩ := htest
  obtain ⟨hexec, hreached⟩ :=
    exec_tested (fun u a _ => paced_of_pacedTest u a) (Reaches.refl _) hs
  obtain ⟨seg, late, htrace, hproc, horder, hmem⟩ := wake_order (by decide) (by decide) hreached
    (paced_of_pacedTest _ _ hpaced) hs₁ (exec_reaches (by simp [Act.waits]) hs₂) hhead
  rw [htargets] at hproc hmem
  exact ⟨s, s₁, s₂, seg, late, hexec, hs₁, hs₂, htrace, hproc, horder,
    (hmem 1).mpr ⟨by decide, hone⟩, (hmem 2).mpr ⟨by decide, htwo⟩⟩

end Libcr
