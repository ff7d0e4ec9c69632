import Mathlib.Logic.Function.Basic

/-!
# Loops with an exit

The body of a loop either goes on with a new state or leaves with a result. A loop
need not end; it is run for a given number of turns.
-/

namespace Libcr

variable {σ ρ : Type*}

/-- At most `fuel` turns of a loop: where it is after them, or what it has left with. -/
def loop (body : σ → σ ⊕ ρ) : Nat → σ → σ ⊕ ρ
  | 0, s => .inl s
  | fuel + 1, s =>
      match body s with
      | .inl t => loop body fuel t
      | .inr r => .inr r

/-- What every turn keeps holds after any number of turns. -/
theorem loop_invariant {P : σ ⊕ ρ → Prop} {body : σ → σ ⊕ ρ}
    (hbody : ∀ s, P (.inl s) → P (body s)) (fuel : Nat) {s : σ} (hs : P (.inl s)) :
    P (loop body fuel s) := by
  induction fuel generalizing s with
  | zero => exact hs
  | succ fuel ih =>
      have hstep := hbody s hs
      unfold loop
      cases hb : body s with
      | inl t =>
          rw [hb] at hstep
          exact ih hstep
      | inr r =>
          rw [hb] at hstep
          exact hstep

end Libcr
