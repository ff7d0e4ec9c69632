import Libcr.Foundations.Buckets
import Libcr.Timer.Wheel

/-!
# What the slots of the wheel hold

The slot of an expiry time is fixed by its distance from `start`, counted from
`start_idx`. `Placed` says that the wheel holds exactly the items of a list
`pending`, given in the order of their insertion, each in the slot of its expiry
time. Since every pending expiry time lies less than one turn after `start`, a
slot then holds one expiry time only. `Holds` adds that no conversion is near its
limits.

Each operation of the wheel is described by what it does to `pending`.
-/

namespace Libcr

namespace Wheel

/-- The slot that belongs to the expiry time `e`. -/
def slotOf (w : Wheel) (e : Nat) : Int := (w.startIdx + ((e : Int) - w.start)) % w.size

theorem slotOf_nonneg (w : Wheel) (e : Nat) : 0 ≤ w.slotOf e :=
  Int.emod_nonneg _ (by have := w.size_pos; omega)

theorem slotOf_lt (w : Wheel) (e : Nat) : w.slotOf e < w.size :=
  Int.emod_lt_of_pos _ (by have := w.size_pos; omega)

/-- Within one turn of the wheel two times with one slot are equal. -/
theorem slotOf_inj {w : Wheel} {d e : Nat} (hd : w.start ≤ d) (hd' : d < w.start + w.size)
    (he : w.start ≤ e) (he' : e < w.start + w.size) (h : w.slotOf d = w.slotOf e) :
    d = e := by
  have hz := Int.emod_eq_emod_iff_emod_sub_eq_zero.mp h
  obtain ⟨c, hc⟩ := Int.dvd_of_emod_eq_zero hz
  have hdiff : (d : Int) - e = w.size * c := by omega
  have hlt : (w.size : Int) * c < w.size * 1 := by omega
  have hgt : (w.size : Int) * (-1) < w.size * c := by omega
  have hpos : (0 : Int) < w.size := by have := w.size_pos; omega
  have hc1 := Int.lt_of_mul_lt_mul_left hlt (by omega)
  have hc2 := Int.lt_of_mul_lt_mul_left hgt (by omega)
  have hc0 : c = 0 := by omega
  subst hc0
  omega

/-- As long as no 64-bit addition overflows, the remainder the source computes is the
mathematical one. -/
theorem slotIndex_eq_emod {w : Wheel} (h0 : 0 ≤ w.startIdx) {d : Int} (hd : 0 ≤ d)
    (hlt : w.startIdx + d < 2 ^ 63) : w.slotIndex d = (w.startIdx + d) % w.size := by
  rw [slotIndex, toInt64_of_range (by omega) hlt, Int.tmod_eq_emod_of_nonneg (by omega)]

/-- The offset the source computes is then the slot of the time it stands for. -/
theorem slotIndex_eq_slotOf {w : Wheel} (h0 : 0 ≤ w.startIdx)
    (hle : w.startIdx ≤ w.start) {e : Nat} (he : w.start ≤ e) (hlt : e < 2 ^ 63) :
    w.slotIndex ((e : Int) - w.start) = w.slotOf e :=
  slotIndex_eq_emod h0 (by omega) (by omega)

end Wheel

variable {α : Type}

/-- Every pending item, listed in insertion order, is in the slot of its expiry time, and
nothing else is in a slot. -/
structure Placed (w : Wheel) (L : TimerLists α) (expire : α → Nat)
    (pending : List α) : Prop where
  linked : L.WellLinked
  idx_nonneg : 0 ≤ w.startIdx
  window : ∀ a ∈ pending, w.start ≤ expire a ∧ expire a < w.start + w.size
  slots : ∀ k, L.seq (.slot k) = pending.filter fun a => w.slotOf (expire a) = k
  nodup : pending.Nodup

namespace Placed

variable {w : Wheel} {L : TimerLists α} {expire : α → Nat} {pending : List α}

theorem mem_slot_iff (h : Placed w L expire pending) {a : α} {k : Int} :
    a ∈ L.seq (.slot k) ↔ a ∈ pending ∧ w.slotOf (expire a) = k := by
  rw [h.slots]
  simp

/-- A pending item is linked in the slot of its expiry time. -/
theorem parent_of_mem (h : Placed w L expire pending) {a : α} (ha : a ∈ pending) :
    L.parent a = some (.slot (w.slotOf (expire a))) :=
  (h.linked.mem_iff _ _).mp (h.mem_slot_iff.mpr ⟨ha, rfl⟩)

/-- Conversely only pending items are linked in a slot. -/
theorem mem_of_parent (h : Placed w L expire pending) {a : α} {k : Int}
    (ha : L.parent a = some (.slot k)) : a ∈ pending :=
  (h.mem_slot_iff.mp ((h.linked.mem_iff _ _).mpr ha)).1

/-- Only the expiry times of pending items and the slots matter. -/
theorem congr {M : TimerLists α} {expire' : α → Nat} (h : Placed w L expire pending)
    (hM : M.WellLinked) (hseq : ∀ k, M.seq (.slot k) = L.seq (.slot k))
    (hexp : ∀ a ∈ pending, expire' a = expire a) : Placed w M expire' pending where
  linked := hM
  idx_nonneg := h.idx_nonneg
  window := by
    intro a ha
    rw [hexp a ha]
    exact h.window a ha
  slots := by
    intro k
    rw [hseq, h.slots]
    apply List.filter_congr
    intro a ha
    rw [hexp a ha]
  nodup := h.nodup

section Visit

/-- The slot of the `i`-th visit belongs to the time `start + i`. -/
theorem slotIndex_visit (h : Placed w L expire pending) {i : Nat}
    (hi : w.startIdx + i < 2 ^ 63) : w.slotIndex i = w.slotOf (w.start + i) := by
  rw [Wheel.slotIndex_eq_emod h.idx_nonneg (by omega) hi, Wheel.slotOf]
  congr 1
  omega

variable {cnt : Nat}

theorem nodup_visited (h : Placed w L expire pending) (hsize : cnt ≤ w.size)
    (hidx : w.startIdx + cnt ≤ 2 ^ 63) : (visitedSlots w cnt).Nodup := by
  unfold visitedSlots
  refine List.Nodup.map_on ?_ List.nodup_range
  intro i hi j hj hij
  rw [List.mem_range] at hi hj
  rw [h.slotIndex_visit (by omega), h.slotIndex_visit (by omega)] at hij
  have heq := Wheel.slotOf_inj (by omega) (by omega) (by omega) (by omega)
    (ListId.slot.inj hij)
  omega

/-- A pending item lies in one of the first `cnt` slots exactly when its time is one of
the first `cnt` from `start` on. -/
theorem mem_visited_iff (h : Placed w L expire pending) (hsize : cnt ≤ w.size)
    (hidx : w.startIdx + cnt ≤ 2 ^ 63) {a : α} (ha : a ∈ pending) :
    .slot (w.slotOf (expire a)) ∈ visitedSlots w cnt ↔ expire a < w.start + cnt := by
  have hw := h.window a ha
  simp only [visitedSlots, List.mem_map, List.mem_range]
  constructor
  · rintro ⟨i, hi, heq⟩
    rw [h.slotIndex_visit (by omega)] at heq
    have hexp := Wheel.slotOf_inj (by omega) (by omega) hw.1 hw.2 (ListId.slot.inj heq)
    omega
  · intro hlt
    refine ⟨expire a - w.start, by omega, ?_⟩
    rw [h.slotIndex_visit (by omega)]
    congr 2
    omega

/-- Reading the visited slots in order is reading the buckets of the times from
`start` on. -/
theorem flatMap_visited (h : Placed w L expire pending) (hsize : cnt ≤ w.size)
    (hidx : w.startIdx + cnt ≤ 2 ^ 63) :
    (visitedSlots w cnt).flatMap L.seq = bucketed expire w.start cnt pending := by
  unfold visitedSlots bucketed
  rw [List.flatMap_map]
  apply List.flatMap_congr
  intro i hi
  rw [List.mem_range] at hi
  rw [h.slotIndex_visit (by omega), h.slots]
  apply List.filter_congr
  intro a ha
  have hw := h.window a ha
  rw [decide_eq_decide]
  constructor
  · intro heq
    exact Wheel.slotOf_inj hw.1 hw.2 (by omega) (by omega) heq
  · intro heq
    rw [heq]

end Visit

variable [DecidableEq α]

/-- The emptied slots and the untouched ones together hold the later items. -/
theorem slots_after (h : Placed w L expire pending) {cnt : Nat} (hsize : cnt ≤ w.size)
    (hidx : w.startIdx + cnt ≤ 2 ^ 63) {result : ListId} (hr : ∀ k, result ≠ .slot k)
    (k : Int) :
    (L.spliceAll result (visitedSlots w cnt)).seq (.slot k) =
      (pending.filter fun a => w.start + cnt ≤ expire a).filter fun a =>
        w.slotOf (expire a) = k := by
  rw [List.filter_filter]
  by_cases hk : .slot k ∈ visitedSlots w cnt
  · rw [LinkedSeqs.seq_spliceAll_of_mem (notMem_visitedSlots hr _ _) hk]
    symm
    rw [List.filter_eq_nil_iff]
    intro a ha hcond
    simp only [Bool.and_eq_true, decide_eq_true_eq] at hcond
    rw [← hcond.1, h.mem_visited_iff hsize hidx ha] at hk
    omega
  · rw [LinkedSeqs.seq_spliceAll_of_ne (Ne.symm (hr k)) hk, h.slots]
    apply List.filter_congr
    intro a ha
    by_cases hs : w.slotOf (expire a) = k
    · rw [← hs, h.mem_visited_iff hsize hidx ha] at hk
      have hlate : w.start + cnt ≤ expire a := by omega
      simp [hs, hlate]
    · simp [hs]

/-- An unlinked item that fits in the window is appended to `pending` when it
is put in its slot. -/
theorem append (h : Placed w L expire pending) {a : α} (ha : L.parent a = none)
    (hlo : w.start ≤ expire a) (hhi : expire a < w.start + w.size) :
    Placed w (L.append (.slot (w.slotOf (expire a))) a) expire (pending ++ [a]) where
  linked := h.linked.append _ ha
  idx_nonneg := h.idx_nonneg
  window := by
    intro b hb
    rcases List.mem_append.mp hb with hb | hb
    · exact h.window b hb
    · rw [List.mem_singleton.mp hb]
      exact ⟨hlo, hhi⟩
  slots := by
    intro k
    by_cases hk : w.slotOf (expire a) = k
    · subst hk
      simp [LinkedSeqs.append, List.filter_append, h.slots]
    · have hne : ListId.slot k ≠ .slot (w.slotOf (expire a)) := by
        simpa using Ne.symm hk
      simp [LinkedSeqs.append, Function.update_of_ne hne, List.filter_append, h.slots, hk]
  nodup := by
    refine List.nodup_append.mpr ⟨h.nodup, by simp, ?_⟩
    intro b hb c hc hbc
    rw [List.mem_singleton] at hc
    have hp := h.parent_of_mem hb
    rw [hbc, hc, ha] at hp
    simp at hp

/-- `remove_from_link` takes the item out of `pending`, if it was there. -/
theorem removeFromLink (h : Placed w L expire pending) (a : α) :
    Placed w (TimerLists.removeFromLink L a) expire (pending.erase a) where
  linked := TimerLists.wellLinked_removeFromLink h.linked a
  idx_nonneg := h.idx_nonneg
  window := fun b hb => h.window b (List.mem_of_mem_erase hb)
  slots := by
    intro k
    rw [TimerLists.seq_removeFromLink h.linked, h.slots,
      (h.nodup.filter _).erase_eq_filter, h.nodup.erase_eq_filter,
      List.filter_comm]
  nodup := h.nodup.erase a

end Placed

/-- The wheel holds exactly `pending`, listed in insertion order, and its clock and index
are far from the end of their ranges. -/
structure Holds (w : Wheel) (L : TimerLists α) (expire : α → Nat)
    (pending : List α) : Prop where
  linked : L.WellLinked
  start_pos : 0 < w.start
  start_lt : w.start < 2 ^ 63
  idx_nonneg : 0 ≤ w.startIdx
  idx_le : w.startIdx ≤ w.start
  window : ∀ a ∈ pending, w.start ≤ expire a ∧ expire a < w.start + w.size
  slots : ∀ k, L.seq (.slot k) = pending.filter fun a => w.slotOf (expire a) = k
  nodup : pending.Nodup

namespace Holds

variable {w : Wheel} {L M : TimerLists α} {expire expire' : α → Nat} {pending : List α}

theorem placed (h : Holds w L expire pending) : Placed w L expire pending :=
  ⟨h.linked, h.idx_nonneg, h.window, h.slots, h.nodup⟩

/-- The lists and the pending items change, and the wheel stays. -/
theorem of_placed (h : Holds w L expire pending) {pending' : List α}
    (hp : Placed w M expire' pending') : Holds w M expire' pending' :=
  ⟨hp.linked, h.start_pos, h.start_lt, h.idx_nonneg, h.idx_le, hp.window, hp.slots, hp.nodup⟩

/-- A pending item is linked in the slot of its expiry time. -/
theorem parent_of_mem (h : Holds w L expire pending) {a : α} (ha : a ∈ pending) :
    L.parent a = some (.slot (w.slotOf (expire a))) :=
  h.placed.parent_of_mem ha

/-- Conversely only pending items are linked in a slot. -/
theorem mem_of_parent (h : Holds w L expire pending) {a : α} {k : Int}
    (ha : L.parent a = some (.slot k)) : a ∈ pending :=
  h.placed.mem_of_parent ha

/-- `Holds` only reads the expiry times of pending items and the slots. -/
theorem congr (h : Holds w L expire pending)
    (hM : M.WellLinked) (hseq : ∀ k, M.seq (.slot k) = L.seq (.slot k))
    (hexp : ∀ a ∈ pending, expire' a = expire a) : Holds w M expire' pending :=
  h.of_placed (h.placed.congr hM hseq hexp)

/-- A fresh wheel holds nothing. -/
theorem allocTimer {size : Nat} (hs : 0 < size) {tick : Nat} (ht : 0 < tick)
    (hlt : tick < 2 ^ 63) (hL : L.WellLinked) (hempty : ∀ k, L.seq (.slot k) = [])
    (expire : α → Nat) : Holds (Wheel.allocTimer size hs tick) L expire [] where
  linked := hL
  start_pos := ht
  start_lt := hlt
  idx_nonneg := by simp [Wheel.allocTimer]
  idx_le := by simp [Wheel.allocTimer]
  window := by simp
  slots := by simpa using hempty
  nodup := List.nodup_nil

/-- The number of slots emptied at `now`, when no conversion cuts it off. -/
def dueCount (w : Wheel) (now : Nat) : Nat := min (now - w.start + 1) w.size

theorem takeCount_eq {now : Nat} (hnow : w.start ≤ now)
    (hgap : now < w.start + (2 ^ 31 - 1)) : w.takeCount now = dueCount w now := by
  have hcnt : toInt32 ((now : Int) - w.start + 1) = (now : Int) - w.start + 1 :=
    toInt32_of_range (by omega) (by omega)
  simp only [Wheel.takeCount, hcnt, dueCount]
  split <;> omega

/-- Within the window, being due means lying in one of the emptied slots. -/
theorem due_iff (h : Holds w L expire pending) {now : Nat} (hnow : w.start ≤ now)
    {a : α} (ha : a ∈ pending) :
    expire a < w.start + dueCount w now ↔ expire a ≤ now := by
  have hw := h.window a ha
  unfold dueCount
  omega

/-- The index does not overflow on the way. -/
theorem dueCount_idx (h : Holds w L expire pending) {now : Nat} (hnow : w.start ≤ now)
    (hlt : now < 2 ^ 63) : w.startIdx + dueCount w now ≤ 2 ^ 63 := by
  have hidx := h.idx_le
  unfold dueCount
  omega

/-- The items that stay are those that are not due. -/
theorem filter_due (h : Holds w L expire pending) {now : Nat} (hnow : w.start ≤ now) :
    (pending.filter fun a => w.start + dueCount w now ≤ expire a) =
      pending.filter fun a => now < expire a := by
  apply List.filter_congr
  intro a ha
  have hdue := h.due_iff hnow ha
  rw [decide_eq_decide]
  omega

variable [DecidableEq α]

/-- An unlinked item that fits in the window is appended to `pending` when it
is put in its slot. -/
theorem append (h : Holds w L expire pending) {a : α} (ha : L.parent a = none)
    (hlo : w.start ≤ expire a) (hhi : expire a < w.start + w.size) :
    Holds w (L.append (.slot (w.slotOf (expire a))) a) expire (pending ++ [a]) :=
  h.of_placed (h.placed.append ha hlo hhi)

/-- `add_timeout` on an unlinked item: it accepts exactly the times from `now`
on that lie less than one turn after `start`, and rejects without a change. -/
theorem addTimeout (h : Holds w L expire pending) {a : α} (ha : L.parent a = none)
    (now : Nat) (he : expire a < 2 ^ 63)
    (hgap : expire a < w.start + (2 ^ 31 - 1)) :
    (w.start ≤ now ∧ now ≤ expire a ∧ expire a < w.start + w.size ∧
      (addTimeout w L a (expire a) now).1 = 0 ∧
      Holds (addTimeout w L a (expire a) now).2.1 (addTimeout w L a (expire a) now).2.2
        expire (pending ++ [a])) ∨
    (¬ (w.start ≤ now ∧ now ≤ expire a ∧ expire a < w.start + w.size) ∧
      addTimeout w L a (expire a) now = (-1, w, L)) := by
  have hrestart := Wheel.restart_of_pos h.start_pos now
  by_cases hnow : now < w.start
  · exact Or.inr ⟨by omega, by simp [Libcr.addTimeout, hrestart, hnow]⟩
  by_cases hexp : expire a < now
  · exact Or.inr ⟨by omega, by simp [Libcr.addTimeout, hrestart, hnow, hexp]⟩
  have hdiff : toInt32 ((expire a : Int) - w.start) = (expire a : Int) - w.start :=
    toInt32_of_range (by omega) (by omega)
  by_cases hsize : (expire a : Int) - w.start ≥ w.size
  · exact Or.inr ⟨by omega, by simp [Libcr.addTimeout, hrestart, hnow, hexp, hdiff, hsize]⟩
  · have hslot := Wheel.slotIndex_eq_slotOf h.idx_nonneg h.idx_le
      (e := expire a) (by omega) he
    have heq : Libcr.addTimeout w L a (expire a) now =
        (0, w, L.append (.slot (w.slotOf (expire a))) a) := by
      simp [Libcr.addTimeout, hrestart, hnow, hexp, hdiff, hsize, hslot,
        TimerLists.addTail_of_unlinked ha]
    rw [heq]
    exact Or.inl ⟨by omega, by omega, by omega, rfl,
      h.append ha (by omega) (by omega)⟩

/-- `remove_from_link` takes the item out of `pending`, if it was there. -/
theorem removeFromLink (h : Holds w L expire pending) (a : α) :
    Holds w (TimerLists.removeFromLink L a) expire (pending.erase a) :=
  h.of_placed (h.placed.removeFromLink a)

/-- `takeAllTimeout` at a time from `start` on: the due items go to the end of
`result` bucket by bucket, and the wheel holds the others. -/
theorem takeAllTimeout (h : Holds w L expire pending) {now : Nat}
    (hnow : w.start ≤ now) (hlt : now < 2 ^ 63) (hgap : now < w.start + (2 ^ 31 - 1))
    {result : ListId} (hr : ∀ k, result ≠ .slot k) :
    Holds (takeAllTimeout w L now result).1 (takeAllTimeout w L now result).2 expire
        (pending.filter fun a => now < expire a) ∧
      (takeAllTimeout w L now result).1.start = now ∧
      (takeAllTimeout w L now result).2 =
        L.spliceAll result (visitedSlots w (dueCount w now)) ∧
      (takeAllTimeout w L now result).2.seq result =
        L.seq result ++ bucketed expire w.start (dueCount w now) pending := by
  have hcnt := takeCount_eq hnow hgap
  have hcap : dueCount w now ≤ w.size := Nat.min_le_right ..
  have hidx : toInt64 (w.startIdx + ((dueCount w now : Int) - 1)) =
      w.startIdx + ((dueCount w now : Int) - 1) := by
    have h0 := h.idx_nonneg
    have h1 := h.idx_le
    have h2 := w.size_pos
    apply toInt64_of_range
    · unfold dueCount
      omega
    · unfold dueCount
      omega
  have hresult : Libcr.takeAllTimeout w L now result =
      ({ w with start := now, startIdx := w.startIdx + ((dueCount w now : Int) - 1) },
        L.spliceAll result (visitedSlots w (dueCount w now))) := by
    have hneg : ¬ ((dueCount w now : Int) < 0) := by omega
    simp only [Libcr.takeAllTimeout, Wheel.restart_of_pos h.start_pos,
      if_neg (Nat.not_lt.mpr hnow), hcnt, if_neg hneg, hidx, Int.toNat_natCast,
      foldl_join_eq_spliceAll]
  rw [hresult]
  refine ⟨?_, rfl, rfl, ?_⟩
  · have hsize := w.size_pos
    have h0 := h.idx_nonneg
    have h1 := h.idx_le
    refine
      { linked := h.linked.spliceAll (notMem_visitedSlots hr _ _)
        start_pos := Nat.lt_of_lt_of_le h.start_pos hnow
        start_lt := hlt
        idx_nonneg := ?_
        idx_le := ?_
        window := ?_
        slots := ?_
        nodup := h.nodup.filter _ }
    · dsimp only
      unfold dueCount
      omega
    · dsimp only
      unfold dueCount
      omega
    · intro a ha
      rw [List.mem_filter, decide_eq_true_eq] at ha
      have hw := h.window a ha.1
      exact ⟨by dsimp only; omega, by dsimp only; omega⟩
    · intro k
      dsimp only
      rw [h.placed.slots_after hcap (h.dueCount_idx hnow hlt) hr, h.filter_due hnow]
      apply List.filter_congr
      intro a ha
      rw [List.mem_filter, decide_eq_true_eq] at ha
      have hw := h.window a ha.1
      -- Something stays behind only if the count was not capped at `size`.
      have hd : (dueCount w now : Int) - 1 = (now : Int) - w.start := by
        unfold dueCount
        omega
      have hslot : w.startIdx + ((dueCount w now : Int) - 1) + ((expire a : Int) - now) =
          w.startIdx + ((expire a : Int) - w.start) := by omega
      simp only [Wheel.slotOf, hslot]
      rfl
  · rw [LinkedSeqs.seq_spliceAll_self (h.placed.nodup_visited hcap (h.dueCount_idx hnow hlt))
      (notMem_visitedSlots hr _ _), h.placed.flatMap_visited hcap (h.dueCount_idx hnow hlt)]

end Holds

end Libcr
