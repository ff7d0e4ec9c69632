import Libcr.Foundations.Runs
import Libcr.Timer.WheelExact

/-!
# The timer wheel at the limits of its integers

`takeAllTimeout` and `add_timeout` store differences of 64-bit times in an `int`, and the
clock may jump forward by any amount. A history whose calls all fit keeps every pending
item in the slot of its time; the next call is safe exactly when it fits too. What does not
fit are jumps of more than `2^31` ms whose remainder modulo `2^32` comes out negative, zero
or too small for what is pending, and the overflow of `start_idx` itself.
-/

namespace Libcr

namespace Wheel

variable {w : Wheel}

/-- The sum `start_idx + d` does not overflow, and its remainder is the index of a slot. -/
def IndexOk (w : Wheel) (d : Int) : Prop :=
  -2 ^ 63 ≤ w.startIdx + d ∧ w.startIdx + d < 2 ^ 63 ∧
    0 ≤ w.slotIndex d ∧ w.slotIndex d < w.size

theorem indexOk_iff (h0 : 0 ≤ w.startIdx) {d : Int} (hd : 0 ≤ d) :
    w.IndexOk d ↔ w.startIdx + d < 2 ^ 63 := by
  constructor
  · exact fun h => h.2.1
  · intro hlt
    have hsize := w.size_pos
    rw [IndexOk, slotIndex_eq_emod h0 hd hlt]
    exact ⟨by omega, hlt, Int.emod_nonneg _ (by omega), Int.emod_lt_of_pos _ (by omega)⟩

theorem takeCount_le (w : Wheel) (now : Nat) : w.takeCount now ≤ w.size := by
  unfold takeCount
  dsimp only
  split <;> omega

/-- Without a wrap the number of slots is that of the times that have passed, up to one
turn. -/
theorem takeCount_of_lt {now : Nat} (hnow : w.start ≤ now) (hgap : now < w.start + w.size)
    (hsize : w.size < 2 ^ 31) : w.takeCount now = (now : Int) - w.start + 1 := by
  have hcnt : toInt32 ((now : Int) - w.start + 1) = (now : Int) - w.start + 1 :=
    toInt32_of_range (by omega) (by omega)
  rw [takeCount, hcnt, if_neg (by omega)]

end Wheel

section

variable {α : Type} [DecidableEq α]

theorem takeAllTimeout_of_neg {w : Wheel} (hpos : 0 < w.start) {now : Nat}
    (hneg : w.takeCount now < 0) (L : TimerLists α) (result : ListId) :
    takeAllTimeout w L now result = (w, L) := by
  simp only [takeAllTimeout, Wheel.restart_of_pos hpos, if_pos hneg, ite_self]

theorem takeAllTimeout_of_nonneg {w : Wheel} (hpos : 0 < w.start) {now : Nat}
    (hnow : w.start ≤ now) {cnt : Nat} (hcnt : w.takeCount now = cnt) (L : TimerLists α)
    (result : ListId) :
    takeAllTimeout w L now result =
      ({ w with start := now, startIdx := toInt64 (w.startIdx + ((cnt : Int) - 1)) },
        L.spliceAll result (visitedSlots w cnt)) := by
  have hneg : ¬ ((cnt : Int) < 0) := by omega
  simp only [takeAllTimeout, Wheel.restart_of_pos hpos, if_neg (Nat.not_lt.mpr hnow), hcnt,
    if_neg hneg, Int.toNat_natCast, foldl_join_eq_spliceAll]

end

namespace WheelHistory

variable {α : Type} [DecidableEq α]

/-- A call with 64-bit times by a clock that is not before `timer->start`, on an item that is
not linked. -/
def Forward (st : TimerState α) : WheelCall α → Prop
  | .addTimeout item expire now =>
      st.lists.parent item = none ∧ st.wheel.start ≤ now ∧ now < 2 ^ 64 ∧ expire < 2 ^ 64
  | .removeFromLink _ => True
  | .takeAllTimeout now result =>
      st.wheel.start ≤ now ∧ now < 2 ^ 64 ∧ ∀ k, result ≠ .slot k

/-- The call does not misdirect the wheel: the slot indices it computes are indices,
`start_idx` does not decrease, nothing that is due stays in a slot, and what lies a turn or
more ahead is refused. -/
def Safe (st : TimerState α) : WheelCall α → Prop
  | .addTimeout item expire now =>
      let w := st.wheel.restart now
      let diff := toInt32 ((expire : Int) - w.start)
      (now ≤ expire → diff < w.size → w.IndexOk diff) ∧
        st.wheel.startIdx ≤ (st.add item expire now).2.wheel.startIdx ∧
        (w.start + w.size ≤ expire → (st.add item expire now).1 = -1)
  | .removeFromLink _ => True
  | .takeAllTimeout now result =>
      let w := st.wheel.restart now
      (∀ i : Nat, i < w.takeCount now → w.IndexOk i) ∧
        st.wheel.startIdx ≤ (st.take now result).wheel.startIdx ∧
        ∀ a k, (st.take now result).lists.parent a = some (.slot k) → now < st.expire a

/-- The numbers of the call fit the types they are stored in, as far as it matters for
what is pending. -/
def Fits (h : WheelHistory α) : WheelCall α → Prop
  | .addTimeout _ expire now =>
      let w := h.state.wheel
      now ≤ expire →
        expire < w.start + w.size ∧ w.startIdx + ((expire : Int) - w.start) < 2 ^ 63 ∨
          w.start + w.size ≤ expire ∧ w.size ≤ toInt32 ((expire : Int) - w.start)
  | .removeFromLink _ => True
  | .takeAllTimeout now _ =>
      let w := h.state.wheel
      w.takeCount now ≠ 0 ∧ w.startIdx + w.takeCount now ≤ 2 ^ 63 ∧
        ∀ a ∈ h.pending, h.state.expire a ≤ now →
          (h.state.expire a : Int) < w.start + w.takeCount now

/-- What a history keeps whose calls all fit. -/
structure Steady (h : WheelHistory α) : Prop where
  placed : Placed h.state.wheel h.state.lists h.state.expire h.pending
  start_pos : 0 < h.state.wheel.start
  idx_lt : h.state.wheel.startIdx < 2 ^ 63
  size_lt : h.state.wheel.size < 2 ^ 31

variable {h : WheelHistory α}

omit [DecidableEq α] in
theorem steady_alloc {size : Nat} (hs : 0 < size) (hsize : size < 2 ^ 31) {tick : Nat}
    (ht : tick ≠ 0) : Steady (alloc (α := α) size hs tick) where
  placed :=
    { linked := LinkedSeqs.empty_wellLinked
      idx_nonneg := Int.le_refl 0
      window := by simp [alloc]
      slots := by simp [alloc, TimerState.alloc, LinkedSeqs.empty]
      nodup := List.nodup_nil }
  start_pos := Nat.pos_of_ne_zero ht
  idx_lt := show (0 : Int) < 2 ^ 63 by decide
  size_lt := hsize

/-- Setting the `expire` field of an unlinked item disturbs nothing. -/
theorem Steady.update_expire (hh : h.Steady) {item : α}
    (hitem : h.state.lists.parent item = none) (e : Nat) :
    Placed h.state.wheel h.state.lists (Function.update h.state.expire item e) h.pending := by
  refine hh.placed.congr hh.placed.linked (fun _ => rfl) ?_
  intro a ha
  refine Function.update_of_ne ?_ _ _
  rintro rfl
  rw [hh.placed.parent_of_mem ha] at hitem
  simp at hitem

section AddTimeout

variable {item : α} {expire now : Nat}

/-- `add_timeout` on a steady history. -/
theorem Steady.add_eq (hh : h.Steady)
    (hc : Forward h.state (.addTimeout item expire now)) :
    h.state.add item expire now =
      if now ≤ expire ∧ toInt32 ((expire : Int) - h.state.wheel.start) < h.state.wheel.size then
        (0, { wheel := h.state.wheel
              lists := h.state.lists.append (.slot (h.state.wheel.slotIndex
                (toInt32 ((expire : Int) - h.state.wheel.start)))) item
              expire := Function.update h.state.expire item expire })
      else (-1, { h.state with expire := Function.update h.state.expire item expire }) := by
  have hrestart := Wheel.restart_of_pos hh.start_pos now
  have hnow : ¬ now < h.state.wheel.start := Nat.not_lt.mpr hc.2.1
  by_cases hexp : expire < now
  · have hfalse : ¬ (now ≤ expire ∧ toInt32 ((expire : Int) - h.state.wheel.start) <
        h.state.wheel.size) := fun hle => by omega
    simp [TimerState.add, Libcr.addTimeout, hrestart, hnow, hexp, hfalse]
  · have hle : now ≤ expire := Nat.not_lt.mp hexp
    by_cases hdiff : toInt32 ((expire : Int) - h.state.wheel.start) < h.state.wheel.size
    · simp [TimerState.add, Libcr.addTimeout, hrestart, hnow, hexp, hle, hdiff,
        Int.not_le.mpr hdiff, TimerLists.addTail_of_unlinked hc.1]
    · simp [TimerState.add, Libcr.addTimeout, hrestart, hnow, hexp, hdiff, Int.not_lt.mp hdiff]

omit [DecidableEq α] in
/-- Up to one turn ahead the distance is not cut off. -/
theorem Steady.diff_eq (hh : h.Steady) (hc : Forward h.state (.addTimeout item expire now))
    (hle : now ≤ expire) (hlt : expire < h.state.wheel.start + h.state.wheel.size) :
    toInt32 ((expire : Int) - h.state.wheel.start) = (expire : Int) - h.state.wheel.start := by
  have hsize := hh.size_lt
  have hnow := hc.2.1
  exact toInt32_of_range (by omega) (by omega)

theorem Steady.add_wheel (hh : h.Steady) (hc : Forward h.state (.addTimeout item expire now)) :
    (h.state.add item expire now).2.wheel = h.state.wheel := by
  rw [hh.add_eq hc]
  split <;> rfl

theorem Steady.safe_add_iff (hh : h.Steady)
    (hc : Forward h.state (.addTimeout item expire now)) :
    Safe h.state (.addTimeout item expire now) ↔ h.Fits (.addTimeout item expire now) := by
  have hidx := hh.placed.idx_nonneg
  have hnow := hc.2.1
  rw [Safe, Fits, Wheel.restart_of_pos hh.start_pos, hh.add_wheel hc, hh.add_eq hc]
  dsimp only
  by_cases hle : now ≤ expire
  · by_cases hlt : expire < h.state.wheel.start + h.state.wheel.size
    · have hdiff := hh.diff_eq hc hle hlt
      have hfits : (expire : Int) - h.state.wheel.start < h.state.wheel.size := by omega
      rw [hdiff, Wheel.indexOk_iff hidx (by omega)]
      simp [hle, hlt, hfits, Nat.not_le.mpr hlt]
    · have hturn := Nat.not_lt.mp hlt
      by_cases hdiff : toInt32 ((expire : Int) - h.state.wheel.start) < h.state.wheel.size
      · simp [hle, hlt, hturn, hdiff, Int.not_le.mpr hdiff]
      · simp [hle, hlt, hturn, hdiff, Int.not_lt.mp hdiff]
  · simp [hle]

theorem Steady.addTimeout (hh : h.Steady)
    (hc : Forward h.state (.addTimeout item expire now))
    (hfits : h.Fits (.addTimeout item expire now)) :
    (h.call (.addTimeout item expire now)).Steady := by
  have hupd := hh.update_expire hc.1 expire
  have hnow := hc.2.1
  by_cases hacc : now ≤ expire ∧
      toInt32 ((expire : Int) - h.state.wheel.start) < h.state.wheel.size
  · have hfit : expire < h.state.wheel.start + h.state.wheel.size ∧
        h.state.wheel.startIdx + ((expire : Int) - h.state.wheel.start) < 2 ^ 63 := by
      rcases hfits hacc.1 with hfit | hfit
      · exact hfit
      · exact absurd hacc.2 (Int.not_lt.mpr hfit.2)
    have hslot : h.state.wheel.slotIndex (toInt32 ((expire : Int) - h.state.wheel.start)) =
        h.state.wheel.slotOf expire := by
      rw [hh.diff_eq hc hacc.1 hfit.1]
      exact Wheel.slotIndex_eq_emod hh.placed.idx_nonneg (by omega) hfit.2
    have hself : Function.update h.state.expire item expire item = expire :=
      Function.update_self ..
    have happend := hupd.append hc.1 (by rw [hself]; omega) (by rw [hself]; exact hfit.1)
    rw [hself] at happend
    have hcall : h.call (.addTimeout item expire now) =
        { state :=
            { wheel := h.state.wheel
              lists := h.state.lists.append (.slot (h.state.wheel.slotOf expire)) item
              expire := Function.update h.state.expire item expire }
          pending := h.pending ++ [item] } := by
      rw [call, hh.add_eq hc, if_pos hacc, hslot]
      rfl
    rw [hcall]
    exact ⟨happend, hh.start_pos, hh.idx_lt, hh.size_lt⟩
  · have hcall : h.call (.addTimeout item expire now) =
        { state := { h.state with expire := Function.update h.state.expire item expire }
          pending := h.pending } := by
      rw [call, hh.add_eq hc, if_neg hacc]
      rfl
    rw [hcall]
    exact ⟨hupd, hh.start_pos, hh.idx_lt, hh.size_lt⟩

end AddTimeout

section TakeAllTimeout

variable {now : Nat} {result : ListId}

/-- A negative count: nothing is taken, and the pending items stay pending. -/
theorem Steady.take_of_neg (hh : h.Steady) (hneg : h.state.wheel.takeCount now < 0) :
    h.state.take now result = h.state := by
  rw [TimerState.take, takeAllTimeout_of_neg hh.start_pos hneg]

/-- What is left in a slot after `cnt` slots have been emptied. -/
theorem Steady.slot_take_iff (hh : h.Steady)
    (hc : Forward h.state (.takeAllTimeout now result)) {cnt : Nat}
    (hcnt : h.state.wheel.takeCount now = cnt) (hidx : h.state.wheel.startIdx + cnt ≤ 2 ^ 63)
    (a : α) :
    (∃ k, (h.state.take now result).lists.parent a = some (.slot k)) ↔
      a ∈ h.pending ∧ h.state.wheel.start + cnt ≤ h.state.expire a := by
  have hcap : cnt ≤ h.state.wheel.size := by
    have hle := h.state.wheel.takeCount_le now
    omega
  have hlists : (h.state.take now result).lists =
      h.state.lists.spliceAll result (visitedSlots h.state.wheel cnt) := by
    rw [TimerState.take, takeAllTimeout_of_nonneg hh.start_pos hc.1 hcnt]
  have hlinked := hh.placed.linked.spliceAll
    (notMem_visitedSlots hc.2.2 h.state.wheel cnt)
  rw [hlists]
  simp only [← hlinked.mem_iff, hh.placed.slots_after hcap hidx hc.2.2, List.mem_filter,
    decide_eq_true_eq]
  constructor
  · rintro ⟨k, hmem, -⟩
    exact hmem
  · exact fun hmem => ⟨_, hmem, rfl⟩

theorem Steady.safe_take_iff (hh : h.Steady)
    (hc : Forward h.state (.takeAllTimeout now result)) :
    Safe h.state (.takeAllTimeout now result) ↔ h.Fits (.takeAllTimeout now result) := by
  have hidx := hh.placed.idx_nonneg
  have hlt := hh.idx_lt
  have hsize := hh.size_lt
  rw [Safe, Fits, Wheel.restart_of_pos hh.start_pos]
  rcases Int.lt_or_le (h.state.wheel.takeCount now) 0 with hneg | hnonneg
  · -- The call returns at once, which is safe if nothing is due.
    rw [hh.take_of_neg hneg]
    constructor
    · rintro ⟨-, -, hleft⟩
      refine ⟨by omega, by omega, ?_⟩
      intro a ha hdue
      have hlate := hleft a _ (hh.placed.parent_of_mem ha)
      omega
    · rintro ⟨-, -, hdue⟩
      refine ⟨fun i hi => by omega, Int.le_refl _, ?_⟩
      intro a k hparent
      have ha := hh.placed.mem_of_parent hparent
      have hw := hh.placed.window a ha
      by_contra hle
      have hcut := hdue a ha (by omega)
      omega
  · obtain ⟨cnt, hcnt⟩ := Int.eq_ofNat_of_zero_le hnonneg
    have hcap := h.state.wheel.takeCount_le now
    have htake : (h.state.take now result).wheel.startIdx =
        toInt64 (h.state.wheel.startIdx + ((cnt : Int) - 1)) := by
      rw [TimerState.take, takeAllTimeout_of_nonneg hh.start_pos hc.1 hcnt]
    rw [hcnt] at hcap ⊢
    rw [htake]
    by_cases hroom : h.state.wheel.startIdx + cnt ≤ 2 ^ 63
    · rw [toInt64_of_range (by omega) (by omega)]
      have hslot := hh.slot_take_iff hc hcnt hroom
      constructor
      · rintro ⟨-, hmono, hleft⟩
        refine ⟨by omega, hroom, ?_⟩
        intro a ha hdue
        by_contra hlate
        obtain ⟨k, hk⟩ := (hslot a).mpr ⟨ha, by omega⟩
        have hearly := hleft a k hk
        omega
      · rintro ⟨hzero, -, hdue⟩
        refine ⟨fun i hi => (Wheel.indexOk_iff hidx (by omega)).mpr (by omega), by omega, ?_⟩
        intro a k hk
        obtain ⟨ha, hlate⟩ := (hslot a).mp ⟨k, hk⟩
        by_contra hle
        have hcut := hdue a ha (by omega)
        omega
    · -- The index overflows and comes out negative.
      rw [toInt64_of_ge (by omega) (by omega)]
      constructor
      · rintro ⟨-, hmono, -⟩
        omega
      · rintro ⟨-, hroom', -⟩
        exact absurd hroom' hroom

/-- The items that are still pending are those in the slots that were not emptied. -/
theorem Steady.pending_take (hh : h.Steady)
    (hc : Forward h.state (.takeAllTimeout now result)) {cnt : Nat}
    (hcnt : h.state.wheel.takeCount now = cnt) (hidx : h.state.wheel.startIdx + cnt ≤ 2 ^ 63) :
    (h.pending.filter fun a => (h.state.take now result).lists.parent a ≠ some result) =
      h.pending.filter fun a => h.state.wheel.start + cnt ≤ h.state.expire a := by
  apply List.filter_congr
  intro a ha
  have hslot := hh.slot_take_iff hc hcnt hidx a
  rw [and_iff_right ha] at hslot
  rw [decide_eq_decide, ← hslot]
  have hlists : (h.state.take now result).lists =
      h.state.lists.spliceAll result (visitedSlots h.state.wheel cnt) := by
    rw [TimerState.take, takeAllTimeout_of_nonneg hh.start_pos hc.1 hcnt]
  rw [hlists]
  constructor
  · intro hne
    rcases hh.placed.linked.parent_spliceAll (notMem_visitedSlots hc.2.2 h.state.wheel cnt) a
      with heq | ⟨-, heq⟩
    · exact ⟨_, heq.trans (hh.placed.parent_of_mem ha)⟩
    · exact absurd heq hne
  · rintro ⟨k, hk⟩ hresult
    rw [hk] at hresult
    exact hc.2.2 k (Option.some.inj hresult).symm

theorem Steady.takeAllTimeout (hh : h.Steady)
    (hc : Forward h.state (.takeAllTimeout now result))
    (hfits : h.Fits (.takeAllTimeout now result)) :
    (h.call (.takeAllTimeout now result)).Steady := by
  obtain ⟨hzero, hroom, hdue⟩ := hfits
  have hidx := hh.placed.idx_nonneg
  have hcap := h.state.wheel.takeCount_le now
  have hsize := hh.size_lt
  rcases Int.lt_or_le (h.state.wheel.takeCount now) 0 with hneg | hnonneg
  · have hpending : (h.pending.filter fun a =>
        h.state.lists.parent a ≠ some result) = h.pending := by
      apply List.filter_eq_self.mpr
      intro a ha
      rw [decide_eq_true_eq, hh.placed.parent_of_mem ha, Ne, Option.some.injEq]
      exact fun heq => hc.2.2 _ heq.symm
    rw [call, hh.take_of_neg hneg, hpending]
    exact hh
  · obtain ⟨cnt, hcnt⟩ := Int.eq_ofNat_of_zero_le hnonneg
    rw [hcnt] at hzero hroom hdue hcap
    rw [call, hh.pending_take hc hcnt hroom, TimerState.take,
      takeAllTimeout_of_nonneg hh.start_pos hc.1 hcnt,
      toInt64_of_range (by omega) (by omega)]
    have hnow := hc.1
    -- What stays is not due, so that the clock has moved by less than a turn.
    have hstays : ∀ a ∈ h.pending.filter fun a =>
        h.state.wheel.start + cnt ≤ h.state.expire a,
        now < h.state.expire a ∧ h.state.expire a < h.state.wheel.start + h.state.wheel.size ∧
          (cnt : Int) = (now : Int) - h.state.wheel.start + 1 := by
      intro a ha
      rw [List.mem_filter, decide_eq_true_eq] at ha
      have hw := hh.placed.window a ha.1
      have hlate : now < h.state.expire a := by
        by_contra hle
        have hcut := hdue a ha.1 (by omega)
        omega
      refine ⟨hlate, hw.2, ?_⟩
      rw [← hcnt]
      exact Wheel.takeCount_of_lt hnow (by omega) hsize
    refine ⟨?_, ?_, ?_, hsize⟩
    · refine
        { linked := hh.placed.linked.spliceAll (notMem_visitedSlots hc.2.2 _ _)
          idx_nonneg := ?_
          window := ?_
          slots := ?_
          nodup := hh.placed.nodup.filter _ }
      · dsimp only
        omega
      · intro a ha
        obtain ⟨hlate, hturn, -⟩ := hstays a ha
        dsimp only
        omega
      · intro k
        dsimp only
        rw [hh.placed.slots_after (by omega) hroom hc.2.2]
        apply List.filter_congr
        intro a ha
        obtain ⟨-, -, hgap⟩ := hstays a ha
        have hsum : h.state.wheel.startIdx + ((cnt : Int) - 1) +
            ((h.state.expire a : Int) - now) =
            h.state.wheel.startIdx + ((h.state.expire a : Int) - h.state.wheel.start) := by
          omega
        simp only [Wheel.slotOf, hsum]
        rfl
    · exact Nat.lt_of_lt_of_le hh.start_pos hnow
    · dsimp only
      omega

end TakeAllTimeout

/-- A call of a history as a step. -/
def step (h : WheelHistory α) (c : WheelCall α) : Option (WheelHistory α) := some (h.call c)

theorem Steady.safe_iff (hh : h.Steady) {c : WheelCall α} (hc : Forward h.state c) :
    Safe h.state c ↔ h.Fits c := by
  cases c with
  | addTimeout item expire now => exact hh.safe_add_iff hc
  | removeFromLink item => exact Iff.rfl
  | takeAllTimeout now result => exact hh.safe_take_iff hc

theorem Steady.call (hh : h.Steady) {c : WheelCall α} (hc : Forward h.state c)
    (hfits : h.Fits c) : (h.call c).Steady := by
  cases c with
  | addTimeout item expire now => exact hh.addTimeout hc hfits
  | removeFromLink item =>
      exact ⟨hh.placed.removeFromLink item, hh.start_pos, hh.idx_lt, hh.size_lt⟩
  | takeAllTimeout now result => exact hh.takeAllTimeout hc hfits

end WheelHistory

open WheelHistory in
/-- The arithmetic of the wheel at its limits. After any history of calls that fit, with
any forward jumps of the clock between them, the next call is safe exactly when it fits. -/
theorem timerArithmetic_safe_iff {α : Type} [DecidableEq α] {size : Nat} (hs : 0 < size)
    (hsize : size < 2 ^ 31) {tick : Nat} (ht : tick ≠ 0) {h : WheelHistory α}
    (hh : Reaches WheelHistory.step (fun h c => Forward h.state c ∧ h.Fits c)
      (alloc size hs tick) h)
    {c : WheelCall α} (hc : Forward h.state c) : Safe h.state c ↔ h.Fits c := by
  have hsteady : h.Steady := by
    refine hh.invariant (steady_alloc hs hsize ht) ?_
    rintro u c v - hu ⟨hc, hfits⟩ hstep
    obtain rfl := Option.some.inj hstep
    exact hu.call hc hfits
  exact hsteady.safe_iff hc

open WheelHistory in
/-- An item armed for 1003 on the wheel of the event loop, and a jump of `2^32 + 70000` ms:
the count is cut down to 70001, which is still more than one turn. -/
theorem timerArithmetic_safe_iff_jump :
    Safe ((alloc (α := Nat) 60000 (by decide) 1000).call (.addTimeout 5 1003 1000)).state
      (.takeAllTimeout (1000 + 2 ^ 32 + 70000) .timeout) := by
  refine (@timerArithmetic_safe_iff Nat _ 60000 (by decide) (by decide) 1000 (by decide) _
    ((Reaches.refl _).snoc (a := .addTimeout 5 1003 1000) ⟨?_, ?_⟩ rfl) _ ?_).mpr ?_
  · exact ⟨rfl, by decide, by decide, by decide⟩
  · exact fun _ => Or.inl ⟨by decide, by decide⟩
  · exact ⟨by decide, by decide, by simp⟩
  · exact ⟨by decide, by decide, by decide⟩

open WheelHistory in
/-- The same item and a jump of `2^32 - 1` ms: the count is zero, so that nothing is taken
and `start_idx` becomes -1. After `2^31` ms an expiry time far beyond the wheel is accepted
and linked in front of the array of slots. -/
theorem timerArithmetic_misdirected :
    let h := (alloc (α := Nat) 60000 (by decide) 1000).call (.addTimeout 5 1003 1000)
    Forward h.state (.takeAllTimeout (1000 + 2 ^ 32 - 1) .timeout) ∧
      (h.state.take (1000 + 2 ^ 32 - 1) .timeout).wheel.startIdx = -1 ∧
      (h.state.take (1000 + 2 ^ 32 - 1) .timeout).lists.parent 5 = some (.slot 3) ∧
      Forward h.state (.addTimeout 6 (1000 + 2 ^ 31) (1000 + 2 ^ 31)) ∧
      (h.state.add 6 (1000 + 2 ^ 31) (1000 + 2 ^ 31)).1 = 0 ∧
      (h.state.add 6 (1000 + 2 ^ 31) (1000 + 2 ^ 31)).2.lists.parent 6 =
        some (.slot (-23648)) := by
  refine ⟨⟨by decide, by decide, by simp⟩, by decide, by decide,
    ⟨by decide, by decide, by decide, by decide⟩, by decide, by decide⟩

end Libcr
