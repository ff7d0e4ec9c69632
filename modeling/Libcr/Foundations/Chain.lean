import Mathlib.Data.List.Nodup

/-!
# Null-terminated chains

The list a program walks when it follows a `next` field from a head pointer to
the null pointer.
-/

namespace Libcr

variable {α : Type*}

/-- Following `next` from `head` meets exactly `xs` and then the null pointer. -/
def Chain (next : α → Option α) : Option α → List α → Prop
  | head, [] => head = none
  | head, a :: rest => head = some a ∧ Chain next (next a) rest

namespace Chain

variable {next next' : α → Option α} {head : Option α} {xs : List α}

/-- A chain only reads the `next` fields of its own elements. -/
theorem congr (h : Chain next head xs) (heq : ∀ a ∈ xs, next' a = next a) :
    Chain next' head xs := by
  induction xs generalizing head with
  | nil => exact h
  | cons a rest ih =>
      refine ⟨h.1, ?_⟩
      rw [heq a (List.mem_cons_self ..)]
      exact ih h.2 fun b hb => heq b (List.mem_cons_of_mem a hb)

/-- The chain of a nonnull head starts with it. -/
theorem of_some {a : α} (h : Chain next (some a) xs) :
    ∃ rest, xs = a :: rest ∧ Chain next (next a) rest := by
  cases xs with
  | nil => exact absurd h (by simp [Chain])
  | cons b rest =>
      obtain rfl := Option.some.inj h.1
      exact ⟨rest, rfl, h.2⟩

/-- The chain of the null head is empty. -/
theorem of_none (h : Chain next none xs) : xs = [] := by
  cases xs with
  | nil => rfl
  | cons b rest => exact absurd h.1 (by simp)

/-- An element off the chain is put in front of it. -/
theorem cons {a : α} (h : Chain next head xs) (ha : a ∉ xs) (hnext : next' a = head)
    (heq : ∀ b, b ≠ a → next' b = next b) : Chain next' (some a) (a :: xs) := by
  refine ⟨rfl, ?_⟩
  rw [hnext]
  exact h.congr fun b hb => heq b fun hba => ha (hba ▸ hb)

/-- The links determine the chain. -/
theorem unique {ys : List α} (h : Chain next head xs) (h' : Chain next head ys) : xs = ys := by
  induction xs generalizing head ys with
  | nil =>
      obtain rfl : head = none := h
      exact h'.of_none.symm
  | cons a rest ih =>
      obtain ⟨rfl, hrest⟩ := h
      obtain ⟨rest', rfl, hrest'⟩ := h'.of_some
      rw [ih hrest hrest']

end Chain

end Libcr
