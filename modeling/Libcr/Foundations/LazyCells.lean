import Libcr.Foundations.Runs
import Mathlib.Logic.Function.Basic

/-!
# Cells that are filled on first use

Procedures share cells that start empty. A procedure may fill a cell, use it, and
call other procedures; any number of callers run such procedures at the same time,
one statement at a time and in any order. Every use is recorded with whether the
cell was filled.

A procedure that fills a cell in its first statement and uses no other cell itself
never uses an empty one, and a cell is never emptied again. So if all procedures
that can be entered are of this kind, no run uses an empty cell.
-/

namespace Libcr

variable {π κ ι : Type*}

/-- The statements of a procedure, each with those that follow it. Which branch the
test of some data takes is left open; the test of the mode of the caller is not. -/
inductive Code (π κ : Type*)
  | done
  | fill (x : κ) (next : Code π κ)
  | use (x : κ) (next : Code π κ)
  | call (p : π) (next : Code π κ)
  | branch (c d next : Code π κ)
  | mode (on off next : Code π κ)
  /-- Repeats its body until `brk`. -/
  | loop (body next : Code π κ)
  | brk
  | ret

/-- The cells used and the procedures called by the code itself, for a caller in
mode `m`. -/
def Code.atoms (m : Bool) : Code π κ → List (κ ⊕ π)
  | .done => []
  | .fill _ next => next.atoms m
  | .use x next => .inl x :: next.atoms m
  | .call p next => .inr p :: next.atoms m
  | .branch c d next => c.atoms m ++ (d.atoms m ++ next.atoms m)
  | .mode on off next => (if m then on.atoms m else off.atoms m) ++ next.atoms m
  | .loop body next => body.atoms m ++ next.atoms m
  | .brk => []
  | .ret => []

/-- What an activation has still to do: code, or the rest of a loop. -/
inductive Pending (π κ : Type*)
  | code (c : Code π κ)
  | again (c : Code π κ)

abbrev Frame (π κ : Type*) := List (Pending π κ)

def Pending.atoms (m : Bool) : Pending π κ → List (κ ⊕ π)
  | .code c => c.atoms m
  | .again c => c.atoms m

def Frame.atoms (m : Bool) (f : Frame π κ) : List (κ ⊕ π) := f.flatMap (Pending.atoms m)

/-- What follows the innermost loop. -/
def afterLoop : Frame π κ → Frame π κ
  | [] => []
  | .again _ :: rest => rest
  | .code _ :: rest => afterLoop rest

/-- The cells, the activations of every caller, innermost first, and the uses made so
far. -/
structure LazySys (π κ ι : Type*) where
  filled : κ → Bool
  frames : ι → List (Frame π κ)
  uses : List (κ × Bool)

/-- A caller that is in no procedure enters one, or a caller executes a statement, with
the branch that its test of some data takes. -/
inductive LazyOp (π ι : Type*)
  | enter (i : ι) (p : π)
  | run (i : ι) (test : Bool)

namespace LazySys

variable [DecidableEq κ] [DecidableEq ι]

def setFrames (s : LazySys π κ ι) (i : ι) (fs : List (Frame π κ)) : LazySys π κ ι :=
  { s with frames := Function.update s.frames i fs }

def step (body : π → Code π κ) (mode : ι → Bool) (s : LazySys π κ ι) :
    LazyOp π ι → Option (LazySys π κ ι)
  | .enter i p =>
      match s.frames i with
      | [] => some (s.setFrames i [[.code (body p)]])
      | _ :: _ => none
  | .run i test =>
      match s.frames i with
      | [] => none
      | [] :: fs => some (s.setFrames i fs)
      | (.again c :: r) :: fs => some (s.setFrames i ((.code c :: .again c :: r) :: fs))
      | (.code .done :: r) :: fs => some (s.setFrames i (r :: fs))
      | (.code (.fill x next) :: r) :: fs =>
          some { s.setFrames i ((.code next :: r) :: fs) with
            filled := Function.update s.filled x true }
      | (.code (.use x next) :: r) :: fs =>
          some { s.setFrames i ((.code next :: r) :: fs) with
            uses := s.uses ++ [(x, s.filled x)] }
      | (.code (.call p next) :: r) :: fs =>
          some (s.setFrames i ([.code (body p)] :: (.code next :: r) :: fs))
      | (.code (.branch c d next) :: r) :: fs =>
          some (s.setFrames i ((.code (if test then c else d) :: .code next :: r) :: fs))
      | (.code (.mode on off next) :: r) :: fs =>
          some (s.setFrames i ((.code (if mode i then on else off) :: .code next :: r) :: fs))
      | (.code (.loop c next) :: r) :: fs =>
          some (s.setFrames i ((.code c :: .again c :: .code next :: r) :: fs))
      | (.code .brk :: r) :: fs => some (s.setFrames i (afterLoop r :: fs))
      | (.code .ret :: _) :: fs => some (s.setFrames i fs)

/-- Before any procedure was entered. -/
def initial : LazySys π κ ι := ⟨fun _ => false, fun _ => [], []⟩

end LazySys

/-- The code fills a cell first and uses no other one itself. -/
def Code.selfFilling [DecidableEq κ] (m : Bool) : Code π κ → Bool
  | .fill x next => (next.atoms m).all fun a => a.elim (· == x) fun _ => true
  | c => (c.atoms m).all fun a => a.elim (fun _ => false) fun _ => true

/-! ### What an activation may still use -/

section Invariant

variable {m : Bool} {filled filled' : κ → Bool} {ok : π → Prop}

/-- A statement that is still to be executed finds its cell filled, and enters only
procedures that may be entered. -/
def AtomOk (filled : κ → Bool) (ok : π → Prop) : κ ⊕ π → Prop :=
  Sum.elim (fun x => filled x = true) ok

/-- Everything that the activation mentions is as it should be, or will be once its
first statement is executed. -/
def FrameOk (m : Bool) (filled : κ → Bool) (ok : π → Prop) (f : Frame π κ) : Prop :=
  (∀ a ∈ f.atoms m, AtomOk filled ok a) ∨
    ∃ x next r, f = .code (.fill x next) :: r ∧
      ∀ a ∈ Frame.atoms m (.code next :: r), a = .inl x ∨ AtomOk filled ok a

theorem update_true_mono [DecidableEq κ] {x y : κ} (h : filled y = true) :
    Function.update filled x true y = true := by
  by_cases heq : y = x
  · rw [heq, Function.update_self]
  · rw [Function.update_of_ne heq, h]

theorem AtomOk.mono {a : κ ⊕ π} (h : AtomOk filled ok a)
    (hle : ∀ x, filled x = true → filled' x = true) : AtomOk filled' ok a := by
  cases a with
  | inl x => exact hle x h
  | inr p => exact h

theorem FrameOk.mono {f : Frame π κ} (h : FrameOk m filled ok f)
    (hle : ∀ x, filled x = true → filled' x = true) : FrameOk m filled' ok f := by
  rcases h with h | ⟨x, next, r, hf, h⟩
  · exact Or.inl fun a ha => (h a ha).mono hle
  · exact Or.inr ⟨x, next, r, hf, fun a ha => (h a ha).imp_right fun h => h.mono hle⟩

theorem afterLoop_atoms (r : Frame π κ) : (afterLoop r).atoms m ⊆ r.atoms m := by
  induction r with
  | nil => exact List.Subset.refl _
  | cons q r ih =>
      cases q with
      | code c => exact List.Subset.trans ih (List.subset_append_right _ _)
      | again c => exact List.subset_append_right _ _

/-- An activation that does not begin by filling a cell has everything it mentions. -/
theorem FrameOk.atoms {q : Pending π κ} {r : Frame π κ} (h : FrameOk m filled ok (q :: r))
    (hq : ∀ x next, q ≠ .code (.fill x next)) :
    ∀ a ∈ Frame.atoms m (q :: r), AtomOk filled ok a := by
  rcases h with h | ⟨x, next, r', hf, -⟩
  · exact h
  · exact absurd (List.cons.inj hf).1 (hq x next)

/-- Filling the cell that an activation fills first. -/
theorem FrameOk.fill [DecidableEq κ] {x : κ} {next : Code π κ} {r : Frame π κ}
    (h : FrameOk m filled ok (.code (.fill x next) :: r)) :
    FrameOk m (Function.update filled x true) ok (.code next :: r) := by
  refine Or.inl fun a ha => ?_
  rcases h with h | ⟨x', next', r', hf, h⟩
  · exact (h a ha).mono fun _ => update_true_mono
  · cases hf
    rcases h a ha with rfl | h
    · exact Function.update_self x true filled
    · exact h.mono fun _ => update_true_mono

/-- The activation of a procedure that fills its own cell first. -/
theorem frameOk_of_selfFilling [DecidableEq κ] {c : Code π κ} (h : c.selfFilling m = true)
    (hcalls : ∀ p, .inr p ∈ c.atoms m → ok p) : FrameOk m filled ok [.code c] := by
  have hatoms : ∀ c : Code π κ, Frame.atoms m [.code c] = c.atoms m :=
    fun c => List.append_nil _
  cases c with
  | fill x next =>
      refine Or.inr ⟨x, next, [], rfl, fun a ha => ?_⟩
      rw [hatoms] at ha
      have hx := List.all_eq_true.mp h a ha
      cases a with
      | inl y => exact Or.inl (congrArg Sum.inl (beq_iff_eq.mp hx))
      | inr p => exact Or.inr (hcalls p ha)
  | _ =>
      refine Or.inl fun a ha => ?_
      rw [hatoms] at ha
      have hx := List.all_eq_true.mp h a ha
      cases a with
      | inl y => cases hx
      | inr p => exact hcalls p ha

end Invariant

namespace LazySys

variable [DecidableEq κ] [DecidableEq ι] {body : π → Code π κ} {mode : ι → Bool}
  {ok : Bool → π → Prop} {s t : LazySys π κ ι}

/-- Every activation has what it needs, and no use so far found its cell empty. -/
structure Ok (mode : ι → Bool) (ok : Bool → π → Prop) (s : LazySys π κ ι) : Prop where
  frames : ∀ i, ∀ f ∈ s.frames i, FrameOk (mode i) s.filled (ok (mode i)) f
  uses : ∀ u ∈ s.uses, u.2 = true

omit [DecidableEq κ] in
theorem Ok.setFrames (h : s.Ok mode ok) {i : ι} {fs : List (Frame π κ)}
    (hfs : ∀ f ∈ fs, FrameOk (mode i) s.filled (ok (mode i)) f) :
    (s.setFrames i fs).Ok mode ok := by
  refine ⟨fun j f hf => ?_, h.uses⟩
  by_cases heq : j = i
  · subst heq
    simp only [LazySys.setFrames, Function.update_self] at hf
    exact hfs f hf
  · simp only [LazySys.setFrames, Function.update_of_ne heq] at hf
    exact h.frames j f hf

omit [DecidableEq ι] in
theorem Ok.fill (h : s.Ok mode ok) (x : κ) :
    Ok mode ok { s with filled := Function.update s.filled x true } where
  frames i f hf := (h.frames i f hf).mono fun _ => update_true_mono
  uses := h.uses

/-- A statement of the innermost activation `q :: r` of a caller. -/
theorem Ok.exec (hbody : ∀ m p, ok m p → FrameOk m s.filled (ok m) [.code (body p)])
    (h : s.Ok mode ok) {i : ι} {test : Bool} {q : Pending π κ} {r : Frame π κ}
    {fs : List (Frame π κ)} (hframes : s.frames i = (q :: r) :: fs)
    (hstep : s.step body mode (.run i test) = some t) : t.Ok mode ok := by
  have hframe : FrameOk (mode i) s.filled (ok (mode i)) (q :: r) :=
    h.frames i _ (by rw [hframes]; exact List.mem_cons_self)
  have hrest : ∀ f ∈ fs, FrameOk (mode i) s.filled (ok (mode i)) f :=
    fun f hf => h.frames i f (by rw [hframes]; exact List.mem_cons_of_mem _ hf)
  -- what becomes of the activation mentions nothing new
  have hbecomes : (∀ x next, q ≠ .code (.fill x next)) → ∀ f' : Frame π κ,
      f'.atoms (mode i) ⊆ Frame.atoms (mode i) (q :: r) →
      ∀ f ∈ f' :: fs, FrameOk (mode i) s.filled (ok (mode i)) f := by
    intro hq f' hsub
    exact List.forall_mem_cons.mpr ⟨Or.inl fun a ha => hframe.atoms hq a (hsub ha), hrest⟩
  cases q with
  | again c =>
      simp only [LazySys.step, hframes, Option.some.injEq] at hstep
      subst hstep
      exact h.setFrames (hbecomes (by simp) _ (by simp [Frame.atoms, Pending.atoms]))
  | code c =>
      cases c <;> simp only [LazySys.step, hframes, Option.some.injEq] at hstep <;> subst hstep
      case done =>
        exact h.setFrames (hbecomes (by simp) _ (List.subset_append_right _ _))
      case fill x next =>
        refine (h.fill x).setFrames (List.forall_mem_cons.mpr ⟨hframe.fill, fun f hf => ?_⟩)
        exact (hrest f hf).mono fun _ => update_true_mono
      case use x next =>
        have hnext := h.setFrames (hbecomes (by simp) (.code next :: r)
          (by simp [Frame.atoms, Pending.atoms, Code.atoms]))
        refine ⟨hnext.frames, fun u hu => ?_⟩
        rcases List.mem_append.mp hu with hu | hu
        · exact h.uses u hu
        · obtain rfl := List.mem_singleton.mp hu
          exact hframe.atoms (by simp) (.inl x) List.mem_cons_self
      case call p next =>
        have hp : ok (mode i) p := hframe.atoms (by simp) (.inr p) List.mem_cons_self
        refine h.setFrames (List.forall_mem_cons.mpr ⟨hbody _ p hp, hbecomes (by simp) _ ?_⟩)
        simp [Frame.atoms, Pending.atoms, Code.atoms]
      case branch c d next =>
        refine h.setFrames (hbecomes (by simp) _ ?_)
        cases test <;> simp [Frame.atoms, Pending.atoms, Code.atoms]
      case mode on off next =>
        refine h.setFrames (hbecomes (by simp) _ ?_)
        cases mode i <;> simp [Frame.atoms, Pending.atoms, Code.atoms]
      case loop c next =>
        refine h.setFrames (hbecomes (by simp) _ ?_)
        simp [Frame.atoms, Pending.atoms, Code.atoms]
      case brk =>
        refine h.setFrames (hbecomes (by simp) _ ?_)
        exact List.Subset.trans (afterLoop_atoms r) (List.subset_append_right _ _)
      case ret => exact h.setFrames hrest

/-- A step that enters only procedures that may be entered. -/
theorem Ok.step (hbody : ∀ m p, ok m p → FrameOk m s.filled (ok m) [.code (body p)])
    (h : s.Ok mode ok) {op : LazyOp π ι} (hop : ∀ i p, op = .enter i p → ok (mode i) p)
    (hstep : s.step body mode op = some t) : t.Ok mode ok := by
  cases op with
  | enter i p =>
      cases hframes : s.frames i with
      | nil =>
          simp only [LazySys.step, hframes, Option.some.injEq] at hstep
          subst hstep
          refine h.setFrames (List.forall_mem_singleton.mpr ?_)
          exact hbody _ p (hop i p rfl)
      | cons f fs => simp [LazySys.step, hframes] at hstep
  | run i test =>
      match hframes : s.frames i with
      | [] => simp [LazySys.step, hframes] at hstep
      | [] :: fs =>
          simp only [LazySys.step, hframes, Option.some.injEq] at hstep
          subst hstep
          refine h.setFrames fun f hf => h.frames i f ?_
          rw [hframes]
          exact List.mem_cons_of_mem _ hf
      | (q :: r) :: fs => exact h.exec hbody hframes hstep

/-- Where the procedures that may be entered fill their own cells and enter only such
procedures, no run uses an empty cell. -/
theorem uses_filled (hfill : ∀ m p, ok m p → (body p).selfFilling m = true)
    (hcalls : ∀ m p, ok m p → ∀ q, .inr q ∈ (body p).atoms m → ok m q)
    (hrun : Reaches (LazySys.step body mode)
      (fun _ op => ∀ i p, op = .enter i p → ok (mode i) p) initial s) :
    ∀ u ∈ s.uses, u.2 = true := by
  have hinit : (initial : LazySys π κ ι).Ok mode ok :=
    ⟨fun _ _ hf => absurd hf List.not_mem_nil, fun _ hu => absurd hu List.not_mem_nil⟩
  refine (hrun.invariant hinit fun u _ _ _ hu hop hstep => hu.step ?_ hop hstep).uses
  exact fun m p hp => frameOk_of_selfFilling (hfill m p hp) (hcalls m p hp)

end LazySys

end Libcr
