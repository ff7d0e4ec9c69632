import Libcr.Timer.WheelInvariant

/-!
# Exactness of the timer wheel over whole call histories

A history is any sequence of `add_timeout`, `remove_from_link` and
`takeAllTimeout` calls on one wheel. `pending` is read off the history alone:
what `add_timeout` accepted, less what was removed and less what an earlier
`takeAllTimeout` moved out. The invariant `Holds` ties it to the slots, and the
result of the next `takeAllTimeout` follows from it.
-/

namespace Libcr

/-- The wheel, its lists, and the `expire` field of every item. -/
structure TimerState (α : Type) where
  wheel : Wheel
  lists : TimerLists α
  expire : α → Nat

/-- One call on the wheel. An item's `expire` is set by the caller of
`add_timeout` right before the call. -/
inductive WheelCall (α : Type)
  | addTimeout (item : α) (expire now : Nat)
  | removeFromLink (item : α)
  | takeAllTimeout (now : Nat) (result : ListId)

namespace TimerState

variable {α : Type} [DecidableEq α]

/-- `alloc_timer` with all items unlinked. -/
def alloc (size : Nat) (size_pos : 0 < size) (tick : Nat) : TimerState α where
  wheel := Wheel.allocTimer size size_pos tick
  lists := LinkedSeqs.empty
  expire := fun _ => 0

/-- `add_timeout(timer, item, now)` with `item->expire` set to `expire`. -/
def add (st : TimerState α) (item : α) (expire now : Nat) : Int × TimerState α :=
  let r := Libcr.addTimeout st.wheel st.lists item expire now
  (r.1, { wheel := r.2.1, lists := r.2.2, expire := Function.update st.expire item expire })

/-- `takeAllTimeout(timer, now, result)`. -/
def take (st : TimerState α) (now : Nat) (result : ListId) : TimerState α :=
  let r := Libcr.takeAllTimeout st.wheel st.lists now result
  { st with wheel := r.1, lists := r.2 }

/-- `remove_from_link(item)`. -/
def remove (st : TimerState α) (item : α) : TimerState α :=
  { st with lists := TimerLists.removeFromLink st.lists item }

end TimerState

/-- A history of calls: the state it leads to, and the items that were accepted
and have since been neither removed nor moved out, in the order of acceptance. -/
structure WheelHistory (α : Type) where
  state : TimerState α
  pending : List α

namespace WheelHistory

variable {α : Type} [DecidableEq α]

/-- The history right after `alloc_timer`. -/
def alloc (size : Nat) (size_pos : 0 < size) (tick : Nat) : WheelHistory α where
  state := TimerState.alloc size size_pos tick
  pending := []

/-- Extend a history by one call. What `takeAllTimeout` moved out is seen by
the new parent of the item. -/
def call (h : WheelHistory α) : WheelCall α → WheelHistory α
  | .addTimeout item expire now =>
      let r := h.state.add item expire now
      { state := r.2
        pending := if r.1 = 0 then h.pending ++ [item] else h.pending }
  | .removeFromLink item =>
      { state := h.state.remove item, pending := h.pending.erase item }
  | .takeAllTimeout now result =>
      let st := h.state.take now result
      { state := st
        pending := h.pending.filter fun a => st.lists.parent a ≠ some result }

/-- What a caller has to respect: clock values stay below `2^63` and less than
`2^31 - 1` ms ahead of `timer->start`, an item passed to `add_timeout` is not
linked, and expired items are not taken into a slot of the wheel. -/
def Admissible (st : TimerState α) : WheelCall α → Prop
  | .addTimeout item expire now =>
      st.lists.parent item = none ∧ now < 2 ^ 63 ∧ expire < 2 ^ 63 ∧
        now < st.wheel.start + (2 ^ 31 - 1) ∧ expire < st.wheel.start + (2 ^ 31 - 1)
  | .removeFromLink _ => True
  | .takeAllTimeout now result =>
      now < 2 ^ 63 ∧ now < st.wheel.start + (2 ^ 31 - 1) ∧ ∀ k, result ≠ .slot k

/-- The histories of admissible calls on a wheel made by `alloc_timer`. -/
inductive Reachable (size : Nat) (size_pos : 0 < size) (tick : Nat) :
    WheelHistory α → Prop
  | alloc : Reachable size size_pos tick (WheelHistory.alloc size size_pos tick)
  | call {h : WheelHistory α} (hh : Reachable size size_pos tick h) (c : WheelCall α)
      (hc : Admissible h.state c) : Reachable size size_pos tick (h.call c)

/-- The invariant of a history. -/
def Exact (h : WheelHistory α) : Prop :=
  Holds h.state.wheel h.state.lists h.state.expire h.pending

omit [DecidableEq α] in
theorem alloc_exact {size : Nat} (hs : 0 < size) {tick : Nat} (ht : 0 < tick)
    (hlt : tick < 2 ^ 63) : Exact (alloc (α := α) size hs tick) :=
  Holds.allocTimer hs ht hlt LinkedSeqs.empty_wellLinked (fun _ => rfl) _

/-- Setting the `expire` field of an unlinked item disturbs nothing. -/
theorem Exact.update_expire {h : WheelHistory α} (hh : h.Exact) {item : α}
    (hitem : h.state.lists.parent item = none) (e : Nat) :
    Holds h.state.wheel h.state.lists (Function.update h.state.expire item e)
      h.pending := by
  refine Holds.congr hh hh.linked (fun _ => rfl) ?_
  intro a ha
  have hne : a ≠ item := by
    intro heq
    have hp := Holds.parent_of_mem hh ha
    rw [heq, hitem] at hp
    simp at hp
  exact Function.update_of_ne hne _ _

theorem Exact.addTimeout {h : WheelHistory α} (hh : h.Exact) {item : α}
    {expire now : Nat} (hc : Admissible h.state (.addTimeout item expire now)) :
    (h.call (.addTimeout item expire now)).Exact := by
  obtain ⟨hitem, -, he, -, hgap⟩ := hc
  have hupd := hh.update_expire hitem expire
  have hself : Function.update h.state.expire item expire item = expire :=
    Function.update_self ..
  have hcases := hupd.addTimeout hitem now (by rw [hself]; exact he)
    (by rw [hself]; exact hgap)
  rw [hself] at hcases
  rcases hcases with ⟨-, -, -, hret, hholds⟩ | ⟨-, hret⟩
  · simpa [Exact, call, TimerState.add, hret] using hholds
  · simpa [Exact, call, TimerState.add, hret] using hupd

/-- What an admissible `takeAllTimeout` does to an exact history. -/
theorem Exact.take_spec {h : WheelHistory α} (hh : h.Exact) {now : Nat}
    {result : ListId} (hc : Admissible h.state (.takeAllTimeout now result))
    (hnow : h.state.wheel.start ≤ now) :
    Holds (h.state.take now result).wheel (h.state.take now result).lists
        h.state.expire (h.pending.filter fun a => now < h.state.expire a) ∧
      (h.state.take now result).lists.seq result =
        h.state.lists.seq result ++
          bucketed h.state.expire h.state.wheel.start
            (Holds.dueCount h.state.wheel now) h.pending := by
  obtain ⟨hlt, hgap, hr⟩ := hc
  have hspec := Holds.takeAllTimeout hh hnow hlt hgap hr
  exact ⟨hspec.1, hspec.2.2.2⟩

theorem take_of_lt {st : TimerState α} {now : Nat} {result : ListId}
    (hpos : 0 < st.wheel.start) (hnow : now < st.wheel.start) :
    st.take now result = st := by
  simp [TimerState.take, Libcr.takeAllTimeout, Wheel.restart_of_pos hpos, hnow]

/-- A pending item is moved to `result` exactly when it is due. -/
theorem Exact.parent_take_iff {h : WheelHistory α} (hh : h.Exact) {now : Nat}
    {result : ListId} (hc : Admissible h.state (.takeAllTimeout now result))
    (hnow : h.state.wheel.start ≤ now) {a : α} (ha : a ∈ h.pending) :
    (h.state.take now result).lists.parent a = some result ↔ h.state.expire a ≤ now := by
  obtain ⟨hholds, hseq⟩ := hh.take_spec hc hnow
  constructor
  · intro hp
    by_contra hlt
    have hmem : a ∈ h.pending.filter fun a => now < h.state.expire a := by
      rw [List.mem_filter, decide_eq_true_eq]
      exact ⟨ha, by omega⟩
    have hslot := hholds.parent_of_mem hmem
    rw [hp, Option.some.injEq] at hslot
    exact hc.2.2 _ hslot
  · intro hle
    rw [← hholds.linked.mem_iff, hseq, List.mem_append, mem_bucketed]
    have hw := Holds.window hh a ha
    exact Or.inr ⟨ha, hw.1, (Holds.due_iff hh hnow ha).mpr hle⟩

theorem Exact.takeAllTimeout {h : WheelHistory α} (hh : h.Exact) {now : Nat}
    {result : ListId} (hc : Admissible h.state (.takeAllTimeout now result)) :
    (h.call (.takeAllTimeout now result)).Exact := by
  by_cases hnow : h.state.wheel.start ≤ now
  · have hfilter : (h.pending.filter fun a =>
        (h.state.take now result).lists.parent a ≠ some result) =
        h.pending.filter fun a => now < h.state.expire a := by
      apply List.filter_congr
      intro a ha
      have := hh.parent_take_iff hc hnow ha
      rw [decide_eq_decide, Ne, this]
      omega
    simp only [Exact, call, hfilter]
    exact (hh.take_spec hc hnow).1
  · have htake : h.state.take now result = h.state :=
      take_of_lt (Holds.start_pos hh) (by omega)
    have hfilter : (h.pending.filter fun a =>
        h.state.lists.parent a ≠ some result) = h.pending := by
      apply List.filter_eq_self.mpr
      intro a ha
      have hp := Holds.parent_of_mem hh ha
      rw [decide_eq_true_eq, hp, Ne, Option.some.injEq]
      exact fun heq => hc.2.2 _ heq.symm
    simp only [Exact, call, htake, hfilter]
    exact hh

/-- Every admissible history is exact. -/
theorem Reachable.exact {size : Nat} {hs : 0 < size} {tick : Nat} (ht : 0 < tick)
    (hlt : tick < 2 ^ 63) {h : WheelHistory α} (hh : Reachable size hs tick h) :
    h.Exact := by
  induction hh with
  | alloc => exact alloc_exact hs ht hlt
  | call _ c hc ih =>
      cases c with
      | addTimeout item expire now => exact ih.addTimeout hc
      | removeFromLink item => exact Holds.removeFromLink ih item
      | takeAllTimeout now result => exact ih.takeAllTimeout hc

/-- No call changes the size of the wheel. -/
theorem Reachable.size_eq {size : Nat} {hs : 0 < size} {tick : Nat}
    {h : WheelHistory α} (hh : Reachable size hs tick h) :
    h.state.wheel.size = size := by
  induction hh with
  | alloc => rfl
  | call _ c _ ih =>
      cases c with
      | addTimeout item expire now =>
          simp only [WheelHistory.call, TimerState.add, addTimeout_size]
          exact ih
      | removeFromLink item => exact ih
      | takeAllTimeout now result =>
          simp only [WheelHistory.call, TimerState.take, takeAllTimeout_size]
          exact ih

/-- The items `takeAllTimeout` appends to `result`. -/
def taken (h : WheelHistory α) (now : Nat) (result : ListId) : List α :=
  ((h.state.take now result).lists.seq result).drop (h.state.lists.seq result).length

end WheelHistory

open WheelHistory in
/-- After any admissible history, `takeAllTimeout` from `start` on appends to
`result` exactly the pending items that are due, each once, by expiry time and
then by acceptance, and every other pending item stays linked in a slot of the
wheel. Before `start` it changes nothing. -/
theorem takeAllTimeout_exact {α : Type} [DecidableEq α] {size : Nat} (hs : 0 < size)
    {tick : Nat} (ht : tick ≠ 0) (hlt : tick < 2 ^ 63) {h : WheelHistory α}
    (hh : Reachable size hs tick h) {now : Nat} {result : ListId}
    (hc : Admissible h.state (.takeAllTimeout now result)) :
    (h.state.wheel.start ≤ now →
      (h.state.take now result).lists.seq result =
          h.state.lists.seq result ++ h.taken now result ∧
        (h.taken now result).Nodup ∧
        (∀ a, a ∈ h.taken now result ↔ a ∈ h.pending ∧ h.state.expire a ≤ now) ∧
        (h.taken now result).Pairwise (fun a b =>
          h.state.expire a < h.state.expire b ∨
            h.state.expire a = h.state.expire b ∧ Precedes h.pending a b) ∧
        ∀ a ∈ h.pending, now < h.state.expire a →
          ∃ k : Int, 0 ≤ k ∧ k < size ∧
            a ∈ (h.state.take now result).lists.seq (.slot k) ∧
            (h.state.take now result).lists.parent a = some (.slot k)) ∧
      (now < h.state.wheel.start → h.state.take now result = h.state) := by
  have hexact := hh.exact (Nat.pos_of_ne_zero ht) hlt
  refine ⟨fun hnow => ?_, take_of_lt (Holds.start_pos hexact)⟩
  obtain ⟨hholds, hseq⟩ := hexact.take_spec hc hnow
  have htaken : h.taken now result =
      bucketed h.state.expire h.state.wheel.start
        (Holds.dueCount h.state.wheel now) h.pending := by
    rw [WheelHistory.taken, hseq, List.drop_left]
  rw [htaken]
  refine ⟨hseq, nodup_bucketed (Holds.nodup hexact), ?_, pairwise_bucketed _ _ _ _, ?_⟩
  · intro a
    rw [mem_bucketed]
    constructor
    · rintro ⟨ha, -, hdue⟩
      exact ⟨ha, (Holds.due_iff hexact hnow ha).mp hdue⟩
    · rintro ⟨ha, hle⟩
      exact ⟨ha, (Holds.window hexact a ha).1, (Holds.due_iff hexact hnow ha).mpr hle⟩
  · intro a ha hlate
    have hmem : a ∈ h.pending.filter fun a => now < h.state.expire a := by
      rw [List.mem_filter, decide_eq_true_eq]
      exact ⟨ha, hlate⟩
    have hparent := hholds.parent_of_mem hmem
    have hsize : (h.state.take now result).wheel.size = size := by
      simp only [TimerState.take, takeAllTimeout_size]
      exact hh.size_eq
    refine ⟨_, Wheel.slotOf_nonneg _ _, ?_, (hholds.linked.mem_iff _ _).mpr hparent, hparent⟩
    rw [← hsize]
    exact Wheel.slotOf_lt _ _

/-- On a wheel of eight slots that starts at 1000, an item armed for 1003 is
what a pass at 1020, more than one turn later, appends. -/
theorem takeAllTimeout_exact_lagging :
    let h := (WheelHistory.alloc (α := Nat) 8 (by decide) 1000).call
      (.addTimeout 5 1003 1000)
    (h.state.take 1020 .timeout).lists.seq .timeout =
        h.state.lists.seq .timeout ++ h.taken 1020 .timeout ∧
      h.taken 1020 .timeout = [5] := by
  refine ⟨(takeAllTimeout_exact (by decide) (by decide) (by decide)
    (.call .alloc (.addTimeout 5 1003 1000) ?_) ?_).1 ?_ |>.1, by decide⟩
  · exact ⟨rfl, by decide, by decide, by decide, by decide⟩
  · exact ⟨by decide, by decide, by simp⟩
  · decide

end Libcr
