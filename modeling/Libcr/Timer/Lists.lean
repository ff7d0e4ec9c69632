import Libcr.Foundations.LinkedSeqs

/-!
# The intrusive timer lists

`timer_list_t` and the list fields of `timer_item_t` of `epoll.h`, and the four
operations of `epoll.c` on them. A list is the sequence of items a traversal
from `head` meets; the `parent` field of an item is kept as the source keeps
it, because `add_tail` and `remove_from_link` decide by it.
-/

namespace Libcr

/-- The lists timer items are linked in: the slots of the wheel, the two lists
of the event loop, and any other `timer_list_t` a caller may own. A slot is
named by its offset from `timer->items`; only the offsets in `[0, size)` lie
inside the array. -/
inductive ListId
  | slot (k : Int)
  | active
  | timeout
  | other (k : Nat)
  deriving DecidableEq

/-- The timer lists over items of type `α`. -/
abbrev TimerLists (α : Type) := LinkedSeqs ListId α

namespace TimerLists

open LinkedSeqs

variable {α : Type} [DecidableEq α]

/-- `add_tail`: an item that already has a parent is left where it is. -/
def addTail (L : TimerLists α) (l : ListId) (item : α) : TimerLists α :=
  if (L.parent item).isSome then L else L.append l item

/-- `popHead`. -/
def popHead (L : TimerLists α) (l : ListId) : TimerLists α :=
  match L.seq l with
  | [] => L
  | item :: _ => L.unlink l item

/-- `join`: the items of `other` go to the end of `list`, with their parent
rewritten, and `other` becomes empty. -/
def join (L : TimerLists α) (list other : ListId) : TimerLists α :=
  if L.seq other = [] then L else L.splice list other

/-- `remove_from_link`: the list to edit is the item's parent. -/
def removeFromLink (L : TimerLists α) (item : α) : TimerLists α :=
  match L.parent item with
  | none => L
  | some l => L.unlink l item

/-- `memset(list, 0, sizeof(timer_list_t))`: the list forgets its items, which
keep whatever parent they had. -/
def memset (L : TimerLists α) (l : ListId) : TimerLists α :=
  { L with seq := Function.update L.seq l [] }

theorem join_eq_splice (L : TimerLists α) (list other : ListId) :
    join L list other = L.splice list other := by
  unfold join
  split
  · next h => exact (splice_of_empty h).symm
  · rfl

theorem addTail_of_unlinked {L : TimerLists α} {item : α} (h : L.parent item = none)
    (l : ListId) : addTail L l item = L.append l item := by
  simp [addTail, h]

omit [DecidableEq α] in
theorem memset_of_empty {L : TimerLists α} {l : ListId} (h : L.seq l = []) :
    memset L l = L := by
  simp [memset, ← h]

theorem wellLinked_addTail {L : TimerLists α} (h : L.WellLinked) (l : ListId)
    (item : α) : (addTail L l item).WellLinked := by
  unfold addTail
  split
  · exact h
  · next hp => exact h.append l (by simpa using hp)

theorem wellLinked_popHead {L : TimerLists α} (h : L.WellLinked) (l : ListId) :
    (popHead L l).WellLinked := by
  unfold popHead
  split
  · exact h
  · next item rest hl =>
      exact h.unlink ((h.mem_iff l item).mp (by simp [hl]))

theorem wellLinked_join {L : TimerLists α} (h : L.WellLinked) {list other : ListId}
    (hne : list ≠ other) : (join L list other).WellLinked := by
  rw [join_eq_splice]
  exact h.splice hne

theorem wellLinked_removeFromLink {L : TimerLists α} (h : L.WellLinked) (item : α) :
    (removeFromLink L item).WellLinked := by
  unfold removeFromLink
  split
  · exact h
  · next l hl => exact h.unlink hl

theorem parent_removeFromLink_self (L : TimerLists α) (item : α) :
    (removeFromLink L item).parent item = none := by
  unfold removeFromLink
  split
  · next h => exact h
  · simp [LinkedSeqs.unlink]

/-- `remove_from_link` deletes the item from whichever list holds it. -/
theorem seq_removeFromLink {L : TimerLists α} (h : L.WellLinked) (item : α)
    (l : ListId) : (removeFromLink L item).seq l = (L.seq l).erase item := by
  unfold removeFromLink
  split
  · next hp => rw [List.erase_of_not_mem (h.notMem_of_unlinked hp l)]
  · next m hm =>
      by_cases hlm : l = m
      · simp [LinkedSeqs.unlink, hlm]
      · have hmem : item ∉ L.seq l := by
          rw [h.mem_iff, hm]
          simpa using Ne.symm hlm
        simp [LinkedSeqs.unlink, hlm, List.erase_of_not_mem hmem]

end TimerLists

end Libcr
