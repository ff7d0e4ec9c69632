import Mathlib.Data.List.Nodup

/-!
# Concatenating buckets

Elements with a numeric key are split into one bucket for each key value, each
bucket keeping the order in which its elements came. Reading a range of buckets
in key order gives every element with a key in the range once, in key order,
and in the original order where keys are equal.
-/

namespace Libcr

variable {α : Type*}

/-- `a` stands before `b` in `xs`. -/
def Precedes (xs : List α) (a b : α) : Prop := [a, b].Sublist xs

/-- The buckets of the keys `lo, …, lo + cnt - 1`, one after the other. -/
def bucketed (key : α → Nat) (lo cnt : Nat) (xs : List α) : List α :=
  (List.range cnt).flatMap fun i => xs.filter fun a => key a = lo + i

theorem mem_bucketed {key : α → Nat} {lo cnt : Nat} {xs : List α} {a : α} :
    a ∈ bucketed key lo cnt xs ↔ a ∈ xs ∧ lo ≤ key a ∧ key a < lo + cnt := by
  simp only [bucketed, List.mem_flatMap, List.mem_range, List.mem_filter,
    decide_eq_true_eq]
  constructor
  · rintro ⟨i, hi, ha, hk⟩
    exact ⟨ha, by omega, by omega⟩
  · rintro ⟨ha, hlo, hhi⟩
    exact ⟨key a - lo, by omega, ha, by omega⟩

theorem nodup_bucketed {key : α → Nat} {lo cnt : Nat} {xs : List α} (hxs : xs.Nodup) :
    (bucketed key lo cnt xs).Nodup := by
  refine List.nodup_flatMap.mpr ⟨fun i _ => hxs.filter _, ?_⟩
  apply List.Pairwise.imp _ (List.nodup_range (n := cnt))
  intro i j hij a hi hj
  simp only [List.mem_filter, decide_eq_true_eq] at hi hj
  omega

/-- The order of the concatenation: by key, and as in `xs` among equal keys. -/
theorem pairwise_bucketed (key : α → Nat) (lo cnt : Nat) (xs : List α) :
    (bucketed key lo cnt xs).Pairwise fun a b =>
      key a < key b ∨ key a = key b ∧ Precedes xs a b := by
  refine List.pairwise_flatMap.mpr ⟨?_, ?_⟩
  · intro i _
    apply List.pairwise_iff_forall_sublist.mpr
    intro a b hab
    have ha := hab.subset (List.mem_cons_self ..)
    have hb := hab.subset (List.mem_cons_of_mem _ (List.mem_singleton_self b))
    simp only [List.mem_filter, decide_eq_true_eq] at ha hb
    exact Or.inr ⟨ha.2.trans hb.2.symm, hab.trans List.filter_sublist⟩
  · apply List.Pairwise.imp _ (List.pairwise_lt_range (n := cnt))
    intro i j hij a ha b hb
    simp only [List.mem_filter, decide_eq_true_eq] at ha hb
    exact Or.inl (by omega)

end Libcr
