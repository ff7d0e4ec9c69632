import Mathlib.Data.List.Basic
import Libcr.Foundations.Chain

/-!
# Doubly linked segments

What a program sees when it follows `next` forth and `prev` back through a part of a
doubly linked list. A segment is described by what its two ends point to, so that two
segments can be put together and a list can be cut at any element.
-/

namespace Libcr

/-- A store through a pointer that is tested for null before. -/
def store {α β : Type} [DecidableEq α] (f : α → β) (p : Option α) (v : β) : α → β :=
  match p with
  | none => f
  | some a => Function.update f a v

section Store

variable {α β : Type} [DecidableEq α] {f : α → β} {p : Option α} {v : β} {a : α}

theorem store_self (h : p = some a) : store f p v a = v := by
  subst h
  exact Function.update_self ..

theorem store_of_ne (h : p ≠ some a) : store f p v a = f a := by
  cases p with
  | none => rfl
  | some b =>
      refine Function.update_of_ne ?_ _ _
      rintro rfl
      exact h rfl

end Store

variable {α : Type*}

/-- The elements of a list are linked to one another in both directions, the first one
back to `before` and the last one forth to `after`. -/
def Threaded (prev next : α → Option α) : Option α → List α → Option α → Prop
  | _, [], _ => True
  | before, a :: rest, after =>
      prev a = before ∧ next a = rest.head?.or after ∧
        Threaded prev next (some a) rest after

variable {prev next prev' next' : α → Option α} {before after : Option α}

/-- Two segments that follow one another point to each other's ends. -/
theorem threaded_append {xs ys : List α} :
    Threaded prev next before (xs ++ ys) after ↔
      Threaded prev next before xs (ys.head?.or after) ∧
        Threaded prev next (xs.getLast?.or before) ys after := by
  induction xs generalizing before with
  | nil => simp [Threaded]
  | cons a rest ih =>
      have hlast : (a :: rest).getLast?.or before = rest.getLast?.or (some a) := by
        rw [List.getLast?_cons]
        cases rest.getLast? <;> rfl
      rw [List.cons_append, Threaded, Threaded, ih, hlast, List.head?_append, Option.or_assoc]
      simp only [and_assoc]

theorem getLast?_ne_of_mem_dropLast {xs : List α} (h : xs.Nodup) {a : α}
    (ha : a ∈ xs.dropLast) : xs.getLast? ≠ some a := by
  intro hlast
  rw [← List.dropLast_append_getLast? a hlast, List.nodup_append] at h
  exact h.2.2 a ha a (by simp) rfl

theorem head?_ne_of_mem_tail {xs : List α} (h : xs.Nodup) {a : α} (ha : a ∈ xs.tail) :
    xs.head? ≠ some a := by
  cases xs with
  | nil => simp
  | cons b rest =>
      rintro hb
      obtain rfl : b = a := Option.some.inj hb
      exact (List.nodup_cons.mp h).1 ha

/-- A segment only reads the links of its own elements. -/
theorem Threaded.congr {xs : List α} (h : Threaded prev next before xs after)
    (hprev : ∀ a ∈ xs, prev' a = prev a) (hnext : ∀ a ∈ xs, next' a = next a) :
    Threaded prev' next' before xs after := by
  induction xs generalizing before with
  | nil => trivial
  | cons a rest ih =>
      obtain ⟨hback, hforth, hrest⟩ := h
      rw [List.forall_mem_cons] at hprev hnext
      exact ⟨hprev.1.trans hback, hnext.1.trans hforth, ih hrest hprev.2 hnext.2⟩

/-- A segment that ends with a null pointer is a chain. -/
theorem Threaded.chain {xs : List α} (h : Threaded prev next before xs none) :
    Chain next xs.head? xs := by
  induction xs generalizing before with
  | nil => rfl
  | cons a rest ih =>
      obtain ⟨-, hforth, hrest⟩ := h
      rw [Option.or_none] at hforth
      refine ⟨rfl, ?_⟩
      rw [hforth]
      exact ih hrest

/-- The first element is bent back to another target. -/
theorem Threaded.relink_before {before' : Option α} {xs : List α}
    (h : Threaded prev next before xs after)
    (hhead : ∀ a, xs.head? = some a → prev' a = before')
    (hprev : ∀ a ∈ xs.tail, prev' a = prev a) (hnext : ∀ a ∈ xs, next' a = next a) :
    Threaded prev' next' before' xs after := by
  cases xs with
  | nil => trivial
  | cons a rest =>
      obtain ⟨-, hforth, hrest⟩ := h
      rw [List.forall_mem_cons] at hnext
      exact ⟨hhead a rfl, hnext.1.trans hforth, hrest.congr hprev hnext.2⟩

/-- The last element is bent forth to another target. -/
theorem Threaded.relink_after {after' : Option α} {xs : List α}
    (h : Threaded prev next before xs after) (hprev : ∀ a ∈ xs, prev' a = prev a)
    (hlast : ∀ a, xs.getLast? = some a → next' a = after')
    (hnext : ∀ a ∈ xs.dropLast, next' a = next a) :
    Threaded prev' next' before xs after' := by
  rcases xs.eq_nil_or_concat' with rfl | ⟨init, z, rfl⟩
  · trivial
  · rw [threaded_append] at h ⊢
    obtain ⟨hinit, hz⟩ := h
    rw [List.dropLast_concat] at hnext
    have hold : ∀ a ∈ init, prev' a = prev a := fun a ha =>
      hprev a (List.mem_append_left [z] ha)
    refine ⟨hinit.congr hold hnext, (hprev z (by simp)).trans hz.1, ?_, trivial⟩
    rw [hlast z (by simp)]
    rfl

/-- Two segments are put together by a store through the end of each. -/
theorem Threaded.join {α : Type} [DecidableEq α] {prev next prev' next' : α → Option α}
    {before after : Option α} {xs ys : List α} (hxs : Threaded prev next none xs after)
    (hys : Threaded prev next before ys none) (hnodup : (xs ++ ys).Nodup)
    (hprev : ∀ a ∈ xs ++ ys, prev' a = store prev ys.head? xs.getLast? a)
    (hnext : ∀ a ∈ xs ++ ys, next' a = store next xs.getLast? ys.head? a) :
    Threaded prev' next' none (xs ++ ys) none := by
  obtain ⟨hnodupl, hnodupr, hdisjoint⟩ := List.nodup_append.mp hnodup
  rw [List.forall_mem_append] at hprev hnext
  rw [threaded_append, Option.or_none, Option.or_none]
  constructor
  · refine hxs.relink_after ?_ ?_ ?_
    · intro a ha
      rw [hprev.1 a ha, store_of_ne]
      exact fun ha' => hdisjoint a ha a (List.mem_of_head? ha') rfl
    · intro a ha
      rw [hnext.1 a (List.mem_of_getLast? ha), store_self ha]
    · intro a ha
      rw [hnext.1 a (List.dropLast_subset _ ha),
        store_of_ne (getLast?_ne_of_mem_dropLast hnodupl ha)]
  · refine hys.relink_before ?_ ?_ ?_
    · intro a ha
      rw [hprev.2 a (List.mem_of_head? ha), store_self ha]
    · intro a ha
      rw [hprev.2 a (List.mem_of_mem_tail ha), store_of_ne (head?_ne_of_mem_tail hnodupr ha)]
    · intro a ha
      rw [hnext.2 a ha, store_of_ne]
      exact fun ha' => hdisjoint a (List.mem_of_getLast? ha') a ha rfl

end Libcr
