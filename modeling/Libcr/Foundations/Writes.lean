import Mathlib.Data.List.Nodup

/-!
# Writes into an array

An array that is written at some positions, one after the other. When no position is
written twice, the order of the writes does not matter: a written position holds what was
written there, and every other one what it held before.
-/

namespace Libcr

variable {α : Type*}

/-- The array after the writes. -/
def writeAll (xs : List α) (ws : List (Nat × α)) : List α :=
  ws.foldl (fun xs w => xs.set w.1 w.2) xs

theorem writeAll_cons (xs : List α) (w : Nat × α) (ws : List (Nat × α)) :
    writeAll xs (w :: ws) = writeAll (xs.set w.1 w.2) ws :=
  rfl

theorem writeAll_append (xs : List α) (ws ws' : List (Nat × α)) :
    writeAll xs (ws ++ ws') = writeAll (writeAll xs ws) ws' :=
  List.foldl_append ..

theorem length_writeAll (xs : List α) (ws : List (Nat × α)) :
    (writeAll xs ws).length = xs.length := by
  induction ws generalizing xs with
  | nil => rfl
  | cons w ws ih => rw [writeAll_cons, ih, List.length_set]

theorem getElem?_writeAll_of_notMem {xs : List α} {ws : List (Nat × α)} {i : Nat}
    (h : i ∉ ws.map Prod.fst) : (writeAll xs ws)[i]? = xs[i]? := by
  induction ws generalizing xs with
  | nil => rfl
  | cons w ws ih =>
      rw [List.map_cons, List.mem_cons, not_or] at h
      rw [writeAll_cons, ih h.2, List.getElem?_set_ne (Ne.symm h.1)]

theorem getElem?_writeAll_of_mem {xs : List α} {ws : List (Nat × α)} {i : Nat} {v : α}
    (hnodup : (ws.map Prod.fst).Nodup) (h : (i, v) ∈ ws) (hi : i < xs.length) :
    (writeAll xs ws)[i]? = some v := by
  induction ws generalizing xs with
  | nil => exact absurd h List.not_mem_nil
  | cons w ws ih =>
      rw [List.map_cons, List.nodup_cons] at hnodup
      rw [writeAll_cons]
      rcases List.mem_cons.mp h with rfl | h
      · rw [getElem?_writeAll_of_notMem hnodup.1, List.getElem?_set_self hi]
      · exact ih hnodup.2 h (by rwa [List.length_set])

/-- Writing elements that are counted over elements that are not adds up. -/
theorem countP_writeAll {p : α → Bool} {xs : List α} {ws : List (Nat × α)}
    (hnodup : (ws.map Prod.fst).Nodup)
    (hws : ∀ w ∈ ws, p w.2 = true ∧ ∃ x, xs[w.1]? = some x ∧ p x = false) :
    (writeAll xs ws).countP p = xs.countP p + ws.length := by
  induction ws generalizing xs with
  | nil => rfl
  | cons w ws ih =>
      rw [List.map_cons, List.nodup_cons] at hnodup
      obtain ⟨hnew, x, hx, hold⟩ := hws w List.mem_cons_self
      obtain ⟨hi, rfl⟩ := List.getElem?_eq_some_iff.mp hx
      have hrest : ∀ w' ∈ ws, p w'.2 = true ∧ ∃ x, (xs.set w.1 w.2)[w'.1]? = some x ∧
          p x = false := by
        intro w' hw'
        have hne : w.1 ≠ w'.1 := by
          intro heq
          exact hnodup.1 (heq ▸ List.mem_map_of_mem hw')
        rw [List.getElem?_set_ne hne]
        exact hws w' (List.mem_cons_of_mem w hw')
      rw [writeAll_cons, ih hnodup.2 hrest, List.countP_set hi, List.length_cons, if_pos hnew,
        if_neg (by simp [hold])]
      omega

end Libcr
