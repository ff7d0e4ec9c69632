import Mathlib.Logic.Function.Basic
import Libcr.Foundations.Runs

/-!
# Interleaved components

A system of components that each have a state of their own and all read a shared
part. A run interleaves the actions of the components with changes of the shared part
in any order. What happens to a component depends on its own actions only, each taken
together with the shared part at that time: this is its history. A run of the system
is one run for each component.
-/

namespace Libcr

variable {κ γ σ β ι : Type*} [DecidableEq κ]

/-- The states of all components, and what they share. -/
structure Parts (κ γ σ : Type*) where
  shared : γ
  part : κ → σ

/-- A change of the shared part, or an action of one component. -/
inductive PartsAct (κ β ι : Type*)
  | share (b : β)
  | own (k : κ) (a : ι)

/-- The same action of the component that is called `f k`. -/
def PartsAct.rename {κ' : Type*} (f : κ → κ') : PartsAct κ β ι → PartsAct κ' β ι
  | .share b => .share b
  | .own k a => .own (f k) a

variable (share : γ → β → γ) (own : γ → σ → ι → Option σ)

namespace Parts

/-- One step of the system. -/
def step (p : Parts κ γ σ) : PartsAct κ β ι → Option (Parts κ γ σ)
  | .share b => some { p with shared := share p.shared b }
  | .own k a => (own p.shared (p.part k) a).map fun s =>
      { p with part := Function.update p.part k s }

/-- One step of a component, with the shared part that it reads. -/
def ownStep (s : σ) (x : γ × ι) : Option σ := own x.1 s x.2

/-- The shared part after a list of actions. -/
def sharedAfter : γ → List (PartsAct κ β ι) → γ
  | g, [] => g
  | g, .share b :: rest => sharedAfter (share g b) rest
  | g, .own _ _ :: rest => sharedAfter g rest

/-- What the component `k` does in a list of actions. -/
def history (k : κ) : γ → List (PartsAct κ β ι) → List (γ × ι)
  | _, [] => []
  | g, .share b :: rest => history k (share g b) rest
  | g, .own j a :: rest =>
      if j = k then (g, a) :: history k g rest else history k g rest

variable {share own}

theorem history_own_self (k : κ) (g : γ) (a : ι) (rest : List (PartsAct κ β ι)) :
    history share k g (.own k a :: rest) = (g, a) :: history share k g rest :=
  if_pos rfl

theorem history_own_of_ne {j k : κ} (h : j ≠ k) (g : γ) (a : ι)
    (rest : List (PartsAct κ β ι)) :
    history share k g (.own j a :: rest) = history share k g rest :=
  if_neg h

theorem history_append (k : κ) (g : γ) (acts acts' : List (PartsAct κ β ι)) :
    history share k g (acts ++ acts') =
      history share k g acts ++ history share k (sharedAfter share g acts) acts' := by
  induction acts generalizing g with
  | nil => rfl
  | cons act rest ih =>
      cases act with
      | share b => exact ih (share g b)
      | own j a =>
          by_cases hj : j = k
          · subst hj
            rw [List.cons_append, history_own_self, history_own_self, ih]
            rfl
          · rw [List.cons_append, history_own_of_ne hj, history_own_of_ne hj, ih]
            rfl

/-- Different names keep the histories apart. -/
theorem history_rename {κ' : Type*} [DecidableEq κ'] {f : κ → κ'} (hf : Function.Injective f)
    (k : κ) (g : γ) (acts : List (PartsAct κ β ι)) :
    history share (f k) g (acts.map (PartsAct.rename f)) = history share k g acts := by
  induction acts generalizing g with
  | nil => rfl
  | cons act rest ih =>
      cases act with
      | share b => exact ih (share g b)
      | own j a =>
          rw [List.map_cons, PartsAct.rename]
          by_cases hj : j = k
          · subst hj
            rw [history_own_self, history_own_self, ih]
          · rw [history_own_of_ne hj, history_own_of_ne fun heq => hj (hf heq), ih]

/-- What holds of the shared part at the start and after every change of it holds of
what a component reads. -/
theorem forall_history {P : γ → Prop} (hshare : ∀ g b, P (share g b)) {g : γ} (hg : P g)
    (k : κ) (acts : List (PartsAct κ β ι)) : ∀ x ∈ history share k g acts, P x.1 := by
  induction acts generalizing g with
  | nil =>
      intro x hx
      simp [history] at hx
  | cons act rest ih =>
      cases act with
      | share b => exact ih (hshare g b)
      | own j a =>
          by_cases hj : j = k
          · subst hj
            rw [history_own_self, List.forall_mem_cons]
            exact ⟨hg, ih hg⟩
          · rw [history_own_of_ne hj]
            exact ih hg

/-- A list of actions can be carried out exactly when every component can carry out its
own history, and the outcome is that of the histories. -/
theorem exec_iff {p p' : Parts κ γ σ} {acts : List (PartsAct κ β ι)} :
    exec (step share own) p acts = some p' ↔
      p'.shared = sharedAfter share p.shared acts ∧
        ∀ k, exec (ownStep own) (p.part k) (history share k p.shared acts) =
          some (p'.part k) := by
  induction acts generalizing p with
  | nil =>
      constructor
      · intro h
        obtain rfl := Option.some.inj h
        exact ⟨rfl, fun _ => rfl⟩
      · rintro ⟨hshared, hparts⟩
        have hpart : p.part = p'.part := by
          funext k
          exact Option.some.inj (hparts k)
        obtain ⟨shared', part'⟩ := p'
        obtain rfl : shared' = p.shared := hshared
        obtain rfl : p.part = part' := hpart
        rfl
  | cons act rest ih =>
      cases act with
      | share b => exact ih
      | own j a =>
          cases hown : own p.shared (p.part j) a with
          | none =>
              have hleft : exec (step share own) p (.own j a :: rest) = none := by
                simp [exec, step, hown]
              have hright : exec (ownStep own) (p.part j)
                  (history share j p.shared (.own j a :: rest)) = none := by
                rw [history_own_self]
                simp [exec, ownStep, hown]
              rw [hleft]
              constructor
              · intro h
                simp at h
              · rintro ⟨-, hparts⟩
                have hsome := hparts j
                rw [hright] at hsome
                simp at hsome
          | some s =>
              have hstep : exec (step share own) p (.own j a :: rest) =
                  exec (step share own) { p with part := Function.update p.part j s } rest := by
                simp [exec, step, hown]
              rw [hstep, ih]
              apply and_congr_right
              intro _
              apply forall_congr'
              intro k
              dsimp only
              by_cases hk : j = k
              · subst hk
                rw [history_own_self, Function.update_self]
                simp [exec, ownStep, hown]
              · rw [history_own_of_ne hk, Function.update_of_ne (Ne.symm hk)]

end Parts

end Libcr
