import Libcr.Foundations.MachineInt
import Libcr.Timer.Lists

/-!
# The timer wheel

`epoll_timer_t` of `epoll.h` with `alloc_timer`, `add_timeout` and
`takeAllTimeout` of `epoll.c`. Clock readings and expiry times are the values of
`unsigned long long` variables; the differences the source stores in an `int`
go through `toInt32`, and `start_idx` is a `long long`.

Nothing in the source keeps a slot offset inside the array, so the model does
not either: an offset outside `[0, size)` names a list of its own, and the
theorems say when such a list is never reached.
-/

namespace Libcr

/-- `epoll_timer_t`, its slots being the lists `ListId.slot`. -/
structure Wheel where
  size : Nat
  size_pos : 0 < size
  start : Nat
  startIdx : Int

namespace Wheel

/-- `alloc_timer`: the wheel starts at the clock reading of its creation. -/
def allocTimer (size : Nat) (size_pos : 0 < size) (tick : Nat) : Wheel where
  size := size
  size_pos := size_pos
  start := tick
  startIdx := 0

/-- The first lines of `add_timeout` and `takeAllTimeout`: a wheel whose start
is zero is set to the current time. -/
def restart (w : Wheel) (now : Nat) : Wheel :=
  if w.start = 0 then { w with start := now, startIdx := 0 } else w

/-- `(timer->start_idx + d) % timer->size`. -/
def slotIndex (w : Wheel) (d : Int) : Int :=
  (toInt64 (w.startIdx + d)).tmod w.size

/-- The number of slots `takeAllTimeout` empties, before the test for a
negative number. -/
def takeCount (w : Wheel) (now : Nat) : Int :=
  let cnt := toInt32 ((now : Int) - w.start + 1)
  if cnt > w.size then w.size else cnt

theorem restart_of_pos {w : Wheel} (h : 0 < w.start) (now : Nat) : w.restart now = w := by
  simp [restart, Nat.pos_iff_ne_zero.mp h]

@[simp] theorem restart_size (w : Wheel) (now : Nat) : (w.restart now).size = w.size := by
  unfold restart
  split <;> rfl

end Wheel

section Operations

variable {α : Type} [DecidableEq α]

/-- `add_timeout`: the return code, the wheel and the lists afterwards. -/
def addTimeout (w : Wheel) (L : TimerLists α) (item : α) (expire now : Nat) :
    Int × Wheel × TimerLists α :=
  let w := w.restart now
  if now < w.start then (-1, w, L)
  else if expire < now then (-1, w, L)
  else
    let diff := toInt32 ((expire : Int) - w.start)
    if diff ≥ w.size then (-1, w, L)
    else (0, w, TimerLists.addTail L (.slot (w.slotIndex diff)) item)

/-- `takeAllTimeout`: the wheel and the lists afterwards. -/
def takeAllTimeout (w : Wheel) (L : TimerLists α) (now : Nat) (result : ListId) :
    Wheel × TimerLists α :=
  let w := w.restart now
  if now < w.start then (w, L)
  else
    let cnt := w.takeCount now
    if cnt < 0 then (w, L)
    else
      let L := (List.range cnt.toNat).foldl
        (fun L (i : Nat) => TimerLists.join L result (.slot (w.slotIndex i))) L
      ({ w with start := now, startIdx := toInt64 (w.startIdx + (cnt - 1)) }, L)

@[simp] theorem addTimeout_size (w : Wheel) (L : TimerLists α) (item : α)
    (expire now : Nat) : (addTimeout w L item expire now).2.1.size = w.size := by
  unfold addTimeout
  dsimp only
  split
  · exact w.restart_size now
  · split
    · exact w.restart_size now
    · split <;> exact w.restart_size now

@[simp] theorem takeAllTimeout_size (w : Wheel) (L : TimerLists α) (now : Nat)
    (result : ListId) : (takeAllTimeout w L now result).1.size = w.size := by
  unfold takeAllTimeout
  dsimp only
  split
  · exact w.restart_size now
  · split <;> exact w.restart_size now

/-- The slots `takeAllTimeout` visits, in the order of the visit. -/
def visitedSlots (w : Wheel) (cnt : Nat) : List ListId :=
  (List.range cnt).map fun i : Nat => .slot (w.slotIndex i)

theorem foldl_join_eq_spliceAll (w : Wheel) (L : TimerLists α) (result : ListId)
    (cnt : Nat) :
    (List.range cnt).foldl
        (fun L (i : Nat) => TimerLists.join L result (.slot (w.slotIndex i))) L =
      L.spliceAll result (visitedSlots w cnt) := by
  simp only [LinkedSeqs.spliceAll, visitedSlots, List.foldl_map,
    TimerLists.join_eq_splice]

theorem notMem_visitedSlots {l : ListId} (hl : ∀ k, l ≠ .slot k) (w : Wheel)
    (cnt : Nat) : l ∉ visitedSlots w cnt := by
  simp only [visitedSlots, List.mem_map, not_exists, not_and]
  intro i _ h
  exact hl _ h.symm

/-- Whatever the clock says, `takeAllTimeout` moves some slots to the end of `result`. -/
theorem takeAllTimeout_lists (w : Wheel) (L : TimerLists α) (now : Nat) (result : ListId) :
    ∃ cnt ≤ w.size, (takeAllTimeout w L now result).2 =
      L.spliceAll result (visitedSlots (w.restart now) cnt) := by
  unfold takeAllTimeout
  dsimp only
  split
  · exact ⟨0, Nat.zero_le _, rfl⟩
  · split
    · exact ⟨0, Nat.zero_le _, rfl⟩
    · refine ⟨((w.restart now).takeCount now).toNat, ?_, foldl_join_eq_spliceAll ..⟩
      have hsize := w.restart_size now
      simp only [Wheel.takeCount]
      split <;> omega

theorem wellLinked_takeAllTimeout {w : Wheel} {L : TimerLists α} (h : L.WellLinked)
    (now : Nat) {result : ListId} (hr : ∀ k, result ≠ .slot k) :
    (takeAllTimeout w L now result).2.WellLinked := by
  obtain ⟨cnt, -, hlists⟩ := takeAllTimeout_lists w L now result
  rw [hlists]
  exact h.spliceAll (notMem_visitedSlots hr _ _)

/-- A list that is neither a slot nor the result is left alone. -/
theorem seq_takeAllTimeout_of_ne {w : Wheel} {L : TimerLists α} {now : Nat}
    {result l : ListId} (hl : ∀ k, l ≠ .slot k) (hne : l ≠ result) :
    (takeAllTimeout w L now result).2.seq l = L.seq l := by
  obtain ⟨cnt, -, hlists⟩ := takeAllTimeout_lists w L now result
  rw [hlists]
  exact LinkedSeqs.seq_spliceAll_of_ne hne (notMem_visitedSlots hl _ _)

end Operations

end Libcr
