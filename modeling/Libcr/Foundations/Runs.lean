import Mathlib.Logic.Relation

/-!
# Runs of a step function

`Reaches step ok s t` says that `t` can be reached from `s` by steps that all
meet the condition `ok`. An invariant is proved by one lemma about a step; a
system that only ever appends to a log can be asked, for any entry of the log,
at which step it was written.
-/

namespace Libcr

variable {σ ι ο : Type*}

/-- An entry of a log that was extended stands in the old part or in the new one. -/
theorem split_append {xs os before after : List ο} {o : ο}
    (h : xs ++ os = before ++ o :: after) :
    (∃ mid, xs = before ++ o :: mid ∧ after = mid ++ os) ∨
      ∃ os₁, before = xs ++ os₁ ∧ os = os₁ ++ o :: after := by
  rcases List.append_eq_append_iff.mp h with ⟨os₁, hbefore, hos⟩ | ⟨mid, hxs, hmid⟩
  · exact Or.inr ⟨os₁, hbefore, hos⟩
  · cases mid with
    | nil => exact Or.inr ⟨[], by simpa using hxs.symm, by simpa using hmid.symm⟩
    | cons o' mid =>
        rw [List.cons_append, List.cons.injEq] at hmid
        obtain ⟨rfl, hafter⟩ := hmid
        exact Or.inl ⟨mid, hxs, hafter⟩

section Entries

variable [DecidableEq ο]

/-- What stands before the first `o`. -/
def entriesBefore (o : ο) (log : List ο) : List ο := log.takeWhile (· ≠ o)

/-- What stands after the first `o`. -/
def entriesAfter (o : ο) (log : List ο) : List ο := (log.dropWhile (· ≠ o)).tail

theorem split_at_mem {o : ο} {log : List ο} (h : o ∈ log) :
    log = entriesBefore o log ++ o :: entriesAfter o log := by
  have hrest : log.dropWhile (· ≠ o) = o :: entriesAfter o log := by
    induction log with
    | nil => cases h
    | cons x rest ih =>
        by_cases hx : x = o
        · subst hx
          simp [entriesAfter]
        · have hmem : o ∈ rest := (List.mem_cons.mp h).resolve_left (Ne.symm hx)
          simpa [entriesAfter, hx] using ih hmem
  rw [← hrest]
  exact (List.takeWhile_append_dropWhile).symm

end Entries

/-- A step with some action that meets the condition. -/
def Steps (step : σ → ι → Option σ) (ok : σ → ι → Prop) (s t : σ) : Prop :=
  ∃ a, ok s a ∧ step s a = some t

/-- Any number of steps, all of which meet the condition. -/
def Reaches (step : σ → ι → Option σ) (ok : σ → ι → Prop) : σ → σ → Prop :=
  Relation.ReflTransGen (Steps step ok)

/-- The condition that excludes nothing. -/
def always : σ → ι → Prop := fun _ _ => True

namespace Reaches

variable {step : σ → ι → Option σ} {ok ok' : σ → ι → Prop} {s t : σ}

theorem refl (s : σ) : Reaches step ok s s := Relation.ReflTransGen.refl

theorem snoc (h : Reaches step ok s t) {a : ι} {u : σ} (hok : ok t a)
    (hstep : step t a = some u) : Reaches step ok s u :=
  Relation.ReflTransGen.tail h ⟨a, hok, hstep⟩

/-- What holds initially and survives every step holds in every reached state.
The step lemma may use that its state is reached. -/
theorem invariant {P : σ → Prop} (h : Reaches step ok s t) (hinit : P s)
    (hpres : ∀ u a v, Reaches step ok s u → P u → ok u a → step u a = some v → P v) :
    P t := by
  induction h with
  | refl => exact hinit
  | tail hu huv ih =>
      obtain ⟨a, hok, hstep⟩ := huv
      exact hpres _ a _ hu ih hok hstep

theorem mono (h : Reaches step ok s t) (himp : ∀ u a, ok u a → ok' u a) :
    Reaches step ok' s t :=
  h.invariant (refl s) fun u a _ _ hu hok hstep => hu.snoc (himp u a hok) hstep

theorem trans (h : Reaches step ok s t) {u : σ} (h' : Reaches step ok t u) :
    Reaches step ok s u :=
  Relation.ReflTransGen.trans h h'

/-- Where the log only grows, an entry that was not there at the start was
written by some step of the run. -/
theorem exists_emission {log : σ → List ο} (h : Reaches step ok s t)
    (happ : ∀ u a v, Reaches step ok s u → step u a = some v → ∃ os, log v = log u ++ os)
    {before after : List ο} {o : ο} (hlog : log t = before ++ o :: after)
    (hnew : (log s).length ≤ before.length) :
    ∃ u a v os₁ os₂ later, Reaches step ok s u ∧ ok u a ∧ step u a = some v ∧
      Reaches step ok v t ∧ log v = log u ++ (os₁ ++ o :: os₂) ∧
      before = log u ++ os₁ ∧ after = os₂ ++ later := by
  induction h generalizing before after with
  | refl =>
      have hlen := congrArg List.length hlog
      simp only [List.length_append, List.length_cons] at hlen
      omega
  | @tail u v hu huv ih =>
      obtain ⟨a, hok, hstep⟩ := huv
      obtain ⟨os, hos⟩ := happ u a v hu hstep
      rw [hos] at hlog
      rcases split_append hlog with ⟨mid, hlogu, hafter⟩ | ⟨os₁, hbefore, hrest⟩
      · obtain ⟨u', a', v', os₁, os₂, later, hu', hok', hstep', hv', hlogv, hb, ha⟩ :=
          ih hlogu hnew
        exact ⟨u', a', v', os₁, os₂, later ++ os, hu', hok', hstep',
          hv'.snoc hok hstep, hlogv, hb, by rw [hafter, ha, List.append_assoc]⟩
      · -- The entry is one of those the last step wrote.
        exact ⟨u, a, v, os₁, after, [], hu, hok, hstep, refl v, by rw [hos, hrest],
          hbefore, by simp⟩

end Reaches

/-- The steps given by a list of actions, one after the other. -/
def exec (step : σ → ι → Option σ) : σ → List ι → Option σ
  | s, [] => some s
  | s, a :: rest => (step s a).bind fun t => exec step t rest

theorem exec_trans {step : σ → ι → Option σ} {s t u : σ} {as bs : List ι}
    (has : exec step s as = some t) (hbs : exec step t bs = some u) :
    exec step s (as ++ bs) = some u := by
  induction as generalizing s with
  | nil =>
      obtain rfl := Option.some.inj has
      exact hbs
  | cons a rest ih =>
      obtain ⟨v, hv, hrest⟩ := Option.bind_eq_some_iff.mp has
      exact Option.bind_eq_some_iff.mpr ⟨v, hv, ih hrest⟩

/-- Where at most one of the actions of a kind is possible in each state, and none in the last
one, every run of such actions is a part of the one run to the last state. -/
theorem exec_prefix {step : σ → ι → Option σ} {I : σ → Prop} {P : ι → Prop} {s t u : σ}
    {as bs : List ι} (hpres : ∀ u a v, I u → step u a = some v → I v)
    (hdet : ∀ u a b, I u → P a → P b → (step u a).isSome → (step u b).isSome → a = b)
    (hlast : ∀ a, P a → step t a = none) (hs : I s) (has : exec step s as = some t)
    (hkind : ∀ a ∈ as, P a) (hbs : exec step s bs = some u) (hkind' : ∀ b ∈ bs, P b) :
    bs <+: as := by
  induction bs generalizing s as with
  | nil => exact List.nil_prefix
  | cons b rest ih =>
      obtain ⟨v, hv, hrest⟩ := Option.bind_eq_some_iff.mp hbs
      rw [List.forall_mem_cons] at hkind'
      cases as with
      | nil =>
          obtain rfl := Option.some.inj has
          rw [hlast b hkind'.1] at hv
          cases hv
      | cons a as =>
          obtain ⟨w, hw, has⟩ := Option.bind_eq_some_iff.mp has
          rw [List.forall_mem_cons] at hkind
          obtain rfl : a = b := hdet s a b hs hkind.1 hkind'.1 (Option.isSome_of_eq_some hw)
            (Option.isSome_of_eq_some hv)
          obtain rfl := Option.some.inj (hw.symm.trans hv)
          rw [List.prefix_cons_inj]
          exact ih (hpres _ _ _ hs hw) has hkind.2 hrest hkind'.2

theorem exec_reaches {step : σ → ι → Option σ} {ok : σ → ι → Prop} {acts : List ι} {s t : σ}
    (hok : ∀ a ∈ acts, ∀ u, ok u a) (h : exec step s acts = some t) : Reaches step ok s t := by
  induction acts generalizing s with
  | nil =>
      obtain rfl := Option.some.inj h
      exact Reaches.refl s
  | cons a rest ih =>
      obtain ⟨u, hu, hrest⟩ := Option.bind_eq_some_iff.mp h
      rw [List.forall_mem_cons] at hok
      exact Relation.ReflTransGen.head ⟨a, hok.1 s, hu⟩ (ih hok.2 hrest)

/-- Steps that have to pass a test. -/
def tested (test : σ → ι → Bool) (step : σ → ι → Option σ) (s : σ) (a : ι) : Option σ :=
  if test s a then step s a else none

/-- A run in which every step passes the test for a condition is a run that meets the
condition. The test need only be right in states that are reached. -/
theorem exec_tested {step : σ → ι → Option σ} {ok : σ → ι → Prop} {test : σ → ι → Bool} {s₀ : σ}
    (htest : ∀ u a, Reaches step ok s₀ u → test u a = true → ok u a) {acts : List ι} {s t : σ}
    (hs : Reaches step ok s₀ s) (h : exec (tested test step) s acts = some t) :
    exec step s acts = some t ∧ Reaches step ok s₀ t := by
  induction acts generalizing s with
  | nil =>
      obtain rfl := Option.some.inj h
      exact ⟨rfl, hs⟩
  | cons a rest ih =>
      obtain ⟨u, hu, hrest⟩ := Option.bind_eq_some_iff.mp h
      obtain ⟨ha, hstep⟩ := Option.ite_none_right_eq_some.mp hu
      obtain ⟨hexec, hreach⟩ := ih (hs.snoc (htest s a hs ha) hstep) hrest
      exact ⟨Option.bind_eq_some_iff.mpr ⟨u, hstep, hexec⟩, hreach⟩

end Libcr
