import Mathlib.Logic.Function.Basic

/-!
# A heap and its owners

Blocks are numbered as they are allocated and 0 is the null pointer. A number is not used
again, so that a pointer to a block that was freed can be told from all others. `Owns` says
that the blocks of a heap are those that a family of pointer variables holds, each held
once: nothing has leaked, nothing is held twice and nothing dangles.
-/

namespace Libcr

variable {β ι : Type*}

/-- The blocks of a heap, and the number of the next one. -/
structure Heap (β : Type*) where
  blocks : Nat → Option β
  next : Nat

namespace Heap

/-- Before the first allocation. -/
def empty : Heap β := ⟨fun _ => none, 1⟩

/-- A new block, at `h.next`. -/
def alloc (h : Heap β) (b : β) : Heap β :=
  ⟨Function.update h.blocks h.next (some b), h.next + 1⟩

/-- The block at `p` is given back. -/
def free (h : Heap β) (p : Nat) : Heap β := { h with blocks := Function.update h.blocks p none }

/-- The block at `p` is overwritten. -/
def write (h : Heap β) (p : Nat) (b : β) : Heap β :=
  { h with blocks := Function.update h.blocks p (some b) }

variable {h : Heap β} {p q : Nat} {b : β}

theorem alloc_self : (h.alloc b).blocks h.next = some b := Function.update_self ..

theorem alloc_of_ne (hp : p ≠ h.next) : (h.alloc b).blocks p = h.blocks p :=
  Function.update_of_ne hp ..

theorem free_self : (h.free p).blocks p = none := Function.update_self ..

theorem free_of_ne (hp : p ≠ q) : (h.free q).blocks p = h.blocks p := Function.update_of_ne hp ..

theorem write_self : (h.write p b).blocks p = some b := Function.update_self ..

theorem write_of_ne (hp : p ≠ q) : (h.write q b).blocks p = h.blocks p :=
  Function.update_of_ne hp ..

/-- The blocks of the heap are those the variables hold, each held by one variable. -/
structure Owns (h : Heap β) (slot : ι → Nat) : Prop where
  live : ∀ i, slot i ≠ 0 → (h.blocks (slot i)).isSome = true
  apart : ∀ i j, slot i ≠ 0 → slot i = slot j → i = j
  only : ∀ p, (h.blocks p).isSome = true → ∃ i, slot i = p
  null : h.blocks 0 = none
  fresh : ∀ p, h.next ≤ p → h.blocks p = none
  next_ne : h.next ≠ 0

theorem owns_empty : (empty : Heap β).Owns fun _ : ι => 0 where
  live := fun _ hi => absurd rfl hi
  apart := fun _ _ hi => absurd rfl hi
  only := fun _ hp => by cases hp
  null := rfl
  fresh := fun _ _ => rfl
  next_ne := Nat.one_ne_zero

namespace Owns

variable {slot : ι → Nat} {i : ι}

theorem ne_next (ho : h.Owns slot) (hi : slot i ≠ 0) : slot i ≠ h.next := by
  intro heq
  have hlive := ho.live i hi
  rw [heq, ho.fresh h.next (Nat.le_refl _)] at hlive
  cases hlive

/-- A block that is held is overwritten. -/
theorem write (ho : h.Owns slot) (hp : (h.blocks p).isSome = true) (b : β) :
    (h.write p b).Owns slot := by
  have hsame : ∀ q, ((h.write p b).blocks q).isSome = (h.blocks q).isSome := by
    intro q
    by_cases hq : q = p
    · rw [hq, write_self, hp]
      rfl
    · rw [write_of_ne hq]
  have hnone : ∀ q, h.blocks q = none → (h.write p b).blocks q = none := by
    intro q hq
    rw [write_of_ne, hq]
    rintro rfl
    rw [hq] at hp
    cases hp
  exact
    { live := fun i hi => (hsame _).trans (ho.live i hi)
      apart := ho.apart
      only := fun q hq => ho.only q ((hsame q).symm.trans hq)
      null := hnone 0 ho.null
      fresh := fun q hq => hnone q (ho.fresh q hq)
      next_ne := ho.next_ne }

variable [DecidableEq ι]

/-- A variable that is null is given a new block. -/
theorem alloc (ho : h.Owns slot) (hi : slot i = 0) (b : β) :
    (h.alloc b).Owns (Function.update slot i h.next) where
  live := by
    intro j hj
    by_cases hji : j = i
    · subst hji
      rw [Function.update_self, alloc_self]
      rfl
    · rw [Function.update_of_ne hji] at hj ⊢
      rw [alloc_of_ne (ho.ne_next hj)]
      exact ho.live j hj
  apart := by
    intro j k hj hjk
    by_cases hji : j = i
    · by_cases hki : k = i
      · rw [hji, hki]
      · subst hji
        rw [Function.update_self, Function.update_of_ne hki] at hjk
        exact absurd hjk.symm (ho.ne_next (hjk ▸ ho.next_ne))
    · rw [Function.update_of_ne hji] at hj hjk
      by_cases hki : k = i
      · subst hki
        rw [Function.update_self] at hjk
        exact absurd hjk (ho.ne_next hj)
      · rw [Function.update_of_ne hki] at hjk
        exact ho.apart j k hj hjk
  only := by
    intro p hp
    by_cases hpn : p = h.next
    · exact ⟨i, by rw [Function.update_self, hpn]⟩
    · rw [alloc_of_ne hpn] at hp
      obtain ⟨j, rfl⟩ := ho.only p hp
      have hji : j ≠ i := by
        rintro rfl
        rw [hi, ho.null] at hp
        cases hp
      exact ⟨j, Function.update_of_ne hji ..⟩
  null := by
    rw [alloc_of_ne ho.next_ne.symm]
    exact ho.null
  fresh := by
    intro p hp
    change h.next + 1 ≤ p at hp
    rw [alloc_of_ne (Nat.ne_of_gt hp)]
    exact ho.fresh p (Nat.le_of_succ_le hp)
  next_ne := Nat.succ_ne_zero _

/-- A variable gives its block back and is null. -/
theorem free (ho : h.Owns slot) (hi : slot i ≠ 0) :
    (h.free (slot i)).Owns (Function.update slot i 0) where
  live := by
    intro j hj
    by_cases hji : j = i
    · subst hji
      rw [Function.update_self] at hj
      exact absurd rfl hj
    · rw [Function.update_of_ne hji] at hj ⊢
      rw [free_of_ne fun heq => hji (ho.apart j i hj heq)]
      exact ho.live j hj
  apart := by
    intro j k hj hjk
    by_cases hji : j = i
    · subst hji
      rw [Function.update_self] at hj
      exact absurd rfl hj
    · rw [Function.update_of_ne hji] at hj hjk
      by_cases hki : k = i
      · subst hki
        rw [Function.update_self] at hjk
        exact absurd hjk hj
      · rw [Function.update_of_ne hki] at hjk
        exact ho.apart j k hj hjk
  only := by
    intro p hp
    by_cases hpi : p = slot i
    · rw [hpi, free_self] at hp
      cases hp
    · rw [free_of_ne hpi] at hp
      obtain ⟨j, rfl⟩ := ho.only p hp
      have hji : j ≠ i := by
        rintro rfl
        exact hpi rfl
      exact ⟨j, Function.update_of_ne hji ..⟩
  null := by
    rw [free_of_ne hi.symm]
    exact ho.null
  fresh := by
    intro p hp
    by_cases hpi : p = slot i
    · rw [hpi]
      exact free_self
    · rw [free_of_ne hpi]
      exact ho.fresh p hp
  next_ne := ho.next_ne

end Owns

end Heap

end Libcr
