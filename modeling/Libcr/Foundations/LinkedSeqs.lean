import Mathlib.Data.List.Nodup
import Mathlib.Logic.Function.Basic

/-!
# Families of linked sequences

A family of sequences over one set of elements, each element carrying the name
of the sequence it was put in. This is what a program with intrusive lists
maintains: the sequences are what a traversal sees, the recorded parent is what
an element answers when it is asked where it is linked.

`WellLinked` says that the two agree. It makes the sequences duplicate-free and
pairwise disjoint at once.
-/

namespace Libcr

/-- Sequences indexed by `ι`, and the recorded parent of each element. -/
structure LinkedSeqs (ι α : Type*) where
  seq : ι → List α
  parent : α → Option ι

namespace LinkedSeqs

variable {ι α : Type*}

/-- All sequences empty and every element unlinked. -/
def empty : LinkedSeqs ι α where
  seq := fun _ => []
  parent := fun _ => none

/-- The sequences are duplicate-free and the recorded parents are exact. -/
structure WellLinked (L : LinkedSeqs ι α) : Prop where
  nodup : ∀ l, (L.seq l).Nodup
  mem_iff : ∀ l a, a ∈ L.seq l ↔ L.parent a = some l

theorem empty_wellLinked : (empty : LinkedSeqs ι α).WellLinked where
  nodup := by simp [empty]
  mem_iff := by simp [empty]

theorem WellLinked.eq_of_mem {L : LinkedSeqs ι α} (h : L.WellLinked) {l m : ι} {a : α}
    (hl : a ∈ L.seq l) (hm : a ∈ L.seq m) : l = m := by
  rw [h.mem_iff] at hl hm
  exact Option.some.inj (hl.symm.trans hm)

theorem WellLinked.notMem_of_unlinked {L : LinkedSeqs ι α} (h : L.WellLinked) {a : α}
    (ha : L.parent a = none) (l : ι) : a ∉ L.seq l := by
  rw [h.mem_iff, ha]
  simp

variable [DecidableEq ι] [DecidableEq α]

/-- Put an element at the end of a sequence. -/
def append (L : LinkedSeqs ι α) (l : ι) (a : α) : LinkedSeqs ι α where
  seq := Function.update L.seq l (L.seq l ++ [a])
  parent := Function.update L.parent a (some l)

/-- Take an element out of a sequence. -/
def unlink (L : LinkedSeqs ι α) (l : ι) (a : α) : LinkedSeqs ι α where
  seq := Function.update L.seq l ((L.seq l).erase a)
  parent := Function.update L.parent a none

/-- Move the whole sequence `m` to the end of the sequence `l`. -/
def splice (L : LinkedSeqs ι α) (l m : ι) : LinkedSeqs ι α where
  seq := Function.update (Function.update L.seq l (L.seq l ++ L.seq m)) m []
  parent := fun a => if a ∈ L.seq m then some l else L.parent a

theorem WellLinked.append {L : LinkedSeqs ι α} (h : L.WellLinked) (l : ι) {a : α}
    (ha : L.parent a = none) : (L.append l a).WellLinked where
  nodup := by
    intro m
    by_cases hm : m = l
    · subst m
      simp only [LinkedSeqs.append, Function.update_self]
      refine List.nodup_append.mpr ⟨h.nodup _, by simp, ?_⟩
      intro b hb c hc hbc
      rw [List.mem_singleton] at hc
      exact h.notMem_of_unlinked ha _ (hc ▸ hbc ▸ hb)
    · simp [LinkedSeqs.append, Function.update_of_ne hm, h.nodup]
  mem_iff := by
    intro m b
    by_cases hb : b = a
    · subst b
      by_cases hm : m = l
      · simp [LinkedSeqs.append, hm]
      · simp [LinkedSeqs.append, Function.update_of_ne hm, h.notMem_of_unlinked ha,
          Ne.symm hm]
    · by_cases hm : m = l
      · simp [LinkedSeqs.append, hm, hb, h.mem_iff]
      · simp [LinkedSeqs.append, Function.update_of_ne hm, Function.update_of_ne hb,
          h.mem_iff]

theorem WellLinked.unlink {L : LinkedSeqs ι α} (h : L.WellLinked) {l : ι} {a : α}
    (ha : L.parent a = some l) : (L.unlink l a).WellLinked where
  nodup := by
    intro m
    by_cases hm : m = l
    · simp [LinkedSeqs.unlink, hm, (h.nodup l).erase a]
    · simp [LinkedSeqs.unlink, Function.update_of_ne hm, h.nodup]
  mem_iff := by
    intro m b
    by_cases hb : b = a
    · subst b
      by_cases hm : m = l
      · simp [LinkedSeqs.unlink, hm, (h.nodup l).not_mem_erase]
      · simp [LinkedSeqs.unlink, Function.update_of_ne hm, h.mem_iff, ha, Ne.symm hm]
    · by_cases hm : m = l
      · simp [LinkedSeqs.unlink, hm, Function.update_of_ne hb, List.mem_erase_of_ne hb,
          h.mem_iff]
      · simp [LinkedSeqs.unlink, Function.update_of_ne hm, Function.update_of_ne hb,
          h.mem_iff]

theorem WellLinked.splice {L : LinkedSeqs ι α} (h : L.WellLinked) {l m : ι}
    (hlm : l ≠ m) : (L.splice l m).WellLinked where
  nodup := by
    intro k
    by_cases hkm : k = m
    · simp [LinkedSeqs.splice, hkm]
    · by_cases hkl : k = l
      · subst k
        simp only [LinkedSeqs.splice, Function.update_of_ne hkm, Function.update_self]
        refine List.nodup_append.mpr ⟨h.nodup l, h.nodup m, ?_⟩
        intro a hal b hbm hab
        subst hab
        exact hlm (h.eq_of_mem hal hbm)
      · simp [LinkedSeqs.splice, Function.update_of_ne hkm, Function.update_of_ne hkl,
          h.nodup]
  mem_iff := by
    intro k a
    by_cases ham : a ∈ L.seq m
    · by_cases hkm : k = m
      · simp [LinkedSeqs.splice, hkm, ham, hlm]
      · by_cases hkl : k = l
        · subst k
          simp [LinkedSeqs.splice, Function.update_of_ne hkm, ham]
        · have hk : a ∉ L.seq k := fun hk => hkm (h.eq_of_mem hk ham)
          simp [LinkedSeqs.splice, Function.update_of_ne hkm, Function.update_of_ne hkl,
            ham, hk, Ne.symm hkl]
    · by_cases hkm : k = m
      · have hp : L.parent a ≠ some m := fun hp => ham ((h.mem_iff m a).mpr hp)
        simp [LinkedSeqs.splice, hkm, ham, hp]
      · by_cases hkl : k = l
        · subst k
          simp [LinkedSeqs.splice, Function.update_of_ne hkm, ham, h.mem_iff l]
        · simp [LinkedSeqs.splice, Function.update_of_ne hkm, Function.update_of_ne hkl,
            ham, h.mem_iff k]

theorem splice_of_empty {L : LinkedSeqs ι α} {l m : ι} (hm : L.seq m = []) :
    L.splice l m = L := by
  have hl : Function.update L.seq l (L.seq l ++ []) = L.seq := by simp
  have hseq : Function.update L.seq m [] = L.seq := by rw [← hm, Function.update_eq_self]
  simp only [splice, hm, hl, hseq]
  simp

/-- Move the sequences `ms`, one after the other, to the end of `l`. -/
def spliceAll (L : LinkedSeqs ι α) (l : ι) (ms : List ι) : LinkedSeqs ι α :=
  ms.foldl (fun L m => L.splice l m) L

@[simp] theorem spliceAll_cons (L : LinkedSeqs ι α) (l m : ι) (ms : List ι) :
    L.spliceAll l (m :: ms) = (L.splice l m).spliceAll l ms := rfl

theorem spliceAll_of_empty {L : LinkedSeqs ι α} {l : ι} {ms : List ι}
    (h : ∀ m ∈ ms, L.seq m = []) : L.spliceAll l ms = L := by
  induction ms with
  | nil => rfl
  | cons m ms ih =>
      rw [List.forall_mem_cons] at h
      rw [spliceAll_cons, splice_of_empty h.1, ih h.2]

theorem WellLinked.spliceAll {L : LinkedSeqs ι α} (h : L.WellLinked) {l : ι}
    {ms : List ι} (hl : l ∉ ms) : (L.spliceAll l ms).WellLinked := by
  induction ms generalizing L with
  | nil => exact h
  | cons m ms ih =>
      rw [List.mem_cons, not_or] at hl
      exact ih (h.splice hl.1) hl.2

/-- Splicing moves linked elements to `l` and leaves the others where they are. -/
theorem WellLinked.parent_spliceAll {L : LinkedSeqs ι α} (h : L.WellLinked) {l : ι}
    {ms : List ι} (hl : l ∉ ms) (a : α) :
    (L.spliceAll l ms).parent a = L.parent a ∨
      (∃ m ∈ ms, L.parent a = some m) ∧ (L.spliceAll l ms).parent a = some l := by
  induction ms generalizing L with
  | nil => exact Or.inl rfl
  | cons m ms ih =>
      rw [List.mem_cons, not_or] at hl
      rw [spliceAll_cons]
      have hstep := ih (h.splice hl.1) hl.2
      by_cases ham : a ∈ L.seq m
      · have hparent : (L.splice l m).parent a = some l := by simp [LinkedSeqs.splice, ham]
        refine Or.inr ⟨⟨m, List.mem_cons_self .., (h.mem_iff m a).mp ham⟩, ?_⟩
        rcases hstep with heq | ⟨-, heq⟩
        · rw [heq, hparent]
        · exact heq
      · have hparent : (L.splice l m).parent a = L.parent a := by
          simp [LinkedSeqs.splice, ham]
        rw [hparent] at hstep
        refine hstep.imp_right ?_
        rintro ⟨⟨k, hk, hak⟩, heq⟩
        exact ⟨⟨k, List.mem_cons_of_mem m hk, hak⟩, heq⟩

theorem seq_spliceAll_of_ne {L : LinkedSeqs ι α} {l k : ι} {ms : List ι}
    (hkl : k ≠ l) (hk : k ∉ ms) : (L.spliceAll l ms).seq k = L.seq k := by
  induction ms generalizing L with
  | nil => rfl
  | cons m ms ih =>
      rw [List.mem_cons, not_or] at hk
      rw [spliceAll_cons, ih hk.2]
      simp [splice, hk.1, hkl]

theorem seq_spliceAll_of_mem {L : LinkedSeqs ι α} {l k : ι} {ms : List ι}
    (hl : l ∉ ms) (hk : k ∈ ms) : (L.spliceAll l ms).seq k = [] := by
  induction ms generalizing L with
  | nil => simp at hk
  | cons m ms ih =>
      rw [List.mem_cons, not_or] at hl
      rw [spliceAll_cons]
      by_cases hkm : k ∈ ms
      · exact ih hl.2 hkm
      · have hk' : k = m := by simpa [hkm] using hk
        subst k
        rw [seq_spliceAll_of_ne (Ne.symm hl.1) hkm]
        simp [splice]

/-- The receiving sequence grows by the moved sequences in the given order. -/
theorem seq_spliceAll_self {L : LinkedSeqs ι α} {l : ι} {ms : List ι}
    (hms : ms.Nodup) (hl : l ∉ ms) :
    (L.spliceAll l ms).seq l = L.seq l ++ ms.flatMap L.seq := by
  induction ms generalizing L with
  | nil => simp [LinkedSeqs.spliceAll]
  | cons m ms ih =>
      rw [List.mem_cons, not_or] at hl
      rw [List.nodup_cons] at hms
      have hself : (L.splice l m).seq l = L.seq l ++ L.seq m := by
        simp [splice, hl.1]
      have hrest : ms.flatMap (L.splice l m).seq = ms.flatMap L.seq := by
        apply List.flatMap_congr
        intro k hk
        have hkm : k ≠ m := fun hkm => hms.1 (hkm ▸ hk)
        have hkl : k ≠ l := fun hkl => hl.2 (hkl ▸ hk)
        simp [splice, hkm, hkl]
      rw [spliceAll_cons, ih hms.2 hl.2, hself, hrest, List.flatMap_cons,
        List.append_assoc]

end LinkedSeqs

end Libcr
