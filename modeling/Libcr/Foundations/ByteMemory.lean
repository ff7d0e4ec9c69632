import Mathlib.Data.BitVec
import Mathlib.Tactic.Common

/-!
# Byte-addressed memory

A 64-bit address space of bytes, with loads and stores of eight bytes in little
endian order. Addresses wrap around, so a range of bytes is given by the distance
from its first one. A load sees the last store to its address, and a store that
is apart from it does not matter; a run of pushes leaves its words one below the
other.
-/

namespace Libcr

/-- A machine word, which is also an address. -/
abbrev Word := BitVec 64

abbrev Memory := Word → BitVec 8

/-- Address `x` is one of the `n` bytes from `a` on. -/
def InRange (a : Word) (n : Nat) (x : Word) : Prop := (x - a).toNat < n

/-- The `n` bytes from `a` on and the `k` bytes from `b` on have none in common. -/
def Apart (a : Word) (n : Nat) (b : Word) (k : Nat) : Prop :=
  ∀ x, InRange a n x → ¬ InRange b k x

/-- The `n` bytes from `a` on as one number, the first byte lowest. -/
def loadBytes (m : Memory) (a : Word) : (n : Nat) → BitVec (8 * n)
  | 0 => 0#0
  | n + 1 => loadBytes m (a + 1) n ++ m a

def loadWord (m : Memory) (a : Word) : Word := loadBytes m a 8

def storeWord (m : Memory) (a v : Word) : Memory := fun x =>
  if (x - a).toNat < 8 then v.extractLsb' (8 * (x - a).toNat) 8 else m x

/-- `memset`: the `n` bytes from `a` on become `b`. -/
def fillBytes (m : Memory) (a : Word) (n : Nat) (b : BitVec 8) : Memory := fun x =>
  if (x - a).toNat < n then b else m x

/-- The words pushed on a stack whose top is at `a`, the first one first. -/
def pushWords (m : Memory) (a : Word) : List Word → Memory
  | [] => m
  | v :: vs => pushWords (storeWord m (a - 8) v) (a - 8) vs

variable {m m' : Memory} {a b v x : Word} {n k : Nat} {vs : List Word}

theorem Apart.symm (h : Apart a n b k) : Apart b k a n :=
  fun x hb ha => h x ha hb

/-- Ranges that do not wrap around are apart when one ends before the other begins. -/
theorem apart_of_le (h : a.toNat + n ≤ b.toNat) (hb : b.toNat + k ≤ 2 ^ 64) :
    Apart a n b k := by
  intro x ha hb'
  unfold InRange at ha hb'
  bv_omega

theorem storeWord_of_not_inRange (h : ¬ InRange a 8 x) : storeWord m a v x = m x :=
  if_neg h

theorem fillBytes_of_not_inRange {c : BitVec 8} (h : ¬ InRange a n x) :
    fillBytes m a n c x = m x :=
  if_neg h

theorem getLsbD_loadBytes {i : Nat} (hi : i < 8 * n) :
    (loadBytes m a n).getLsbD i = (m (a + BitVec.ofNat 64 (i / 8))).getLsbD (i % 8) := by
  induction n generalizing a i with
  | zero => omega
  | succ n ih =>
      rw [loadBytes, BitVec.getLsbD_append]
      by_cases hlow : i < 8
      · rw [if_pos hlow, Nat.div_eq_of_lt hlow, Nat.mod_eq_of_lt hlow, BitVec.add_zero]
      · have haddr : a + 1 + BitVec.ofNat 64 ((i - 8) / 8) = a + BitVec.ofNat 64 (i / 8) := by
          rw [show i / 8 = (i - 8) / 8 + 1 by omega]
          bv_omega
        rw [if_neg hlow, ih (by omega), haddr, show (i - 8) % 8 = i % 8 by omega]

/-- A load reads its eight bytes and nothing else. -/
theorem loadWord_congr (h : ∀ x, InRange a 8 x → m x = m' x) :
    loadWord m a = loadWord m' a := by
  apply BitVec.eq_of_getLsbD_eq
  intro i hi
  have hin : InRange a 8 (a + BitVec.ofNat 64 (i / 8)) := by
    unfold InRange
    bv_omega
  rw [loadWord, loadWord, getLsbD_loadBytes hi, getLsbD_loadBytes hi, h _ hin]

theorem loadWord_eq_zero (h : ∀ x, InRange a 8 x → m x = 0) : loadWord m a = 0 := by
  have hzero : ∀ x, InRange a 8 x → m x = (fun _ => 0 : Memory) x := h
  rw [loadWord_congr hzero]
  apply BitVec.eq_of_getLsbD_eq
  intro i hi
  rw [loadWord, getLsbD_loadBytes hi]
  simp

@[simp] theorem loadWord_storeWord : loadWord (storeWord m a v) a = v := by
  apply BitVec.eq_of_getLsbD_eq
  intro i hi
  have hdist : (a + BitVec.ofNat 64 (i / 8) - a).toNat = i / 8 := by bv_omega
  rw [loadWord, getLsbD_loadBytes hi, storeWord, hdist, if_pos (by omega),
    BitVec.getLsbD_extractLsb', show 8 * (i / 8) + i % 8 = i by omega]
  simp [Nat.mod_lt]

theorem loadWord_storeWord_of_apart (h : Apart a 8 b 8) :
    loadWord (storeWord m b v) a = loadWord m a :=
  loadWord_congr fun x hx => storeWord_of_not_inRange (h x hx)

/-- The address `n` words below `a`. -/
def below (a : Word) (n : Nat) : Word := a - BitVec.ofNat 64 (8 * n)

theorem pushWords_of_not_inRange (hlen : 8 * vs.length < 2 ^ 64)
    (h : ¬ InRange (below a vs.length) (8 * vs.length) x) : pushWords m a vs x = m x := by
  induction vs generalizing a m with
  | nil => rfl
  | cons v vs ih =>
      unfold InRange below at h
      simp only [List.length_cons] at h hlen
      have hrest : ¬ InRange (below (a - 8) vs.length) (8 * vs.length) x := by
        unfold InRange below
        bv_omega
      have hfirst : ¬ InRange (a - 8) 8 x := by
        unfold InRange
        bv_omega
      rw [pushWords, ih (by omega) hrest, storeWord_of_not_inRange hfirst]

/-- The word pushed as number `i` stands `i + 1` words below the top. -/
theorem loadWord_pushWords (hlen : 8 * vs.length < 2 ^ 64) {i : Nat} (hi : i < vs.length) :
    loadWord (pushWords m a vs) (below a (i + 1)) = vs[i] := by
  induction vs generalizing a m i with
  | nil => simp at hi
  | cons v vs ih =>
      simp only [List.length_cons] at hi hlen
      cases i with
      | zero =>
          have hlater : ∀ x, InRange (a - 8) 8 x →
              pushWords (storeWord m (a - 8) v) (a - 8) vs x = storeWord m (a - 8) v x := by
            intro x hx
            refine pushWords_of_not_inRange (by omega) ?_
            unfold InRange below at *
            bv_omega
          rw [pushWords, show below a (0 + 1) = a - 8 from rfl, loadWord_congr hlater,
            loadWord_storeWord, List.getElem_cons_zero]
      | succ i =>
          have haddr : below a (i + 1 + 1) = below (a - 8) (i + 1) := by
            unfold below
            bv_omega
          rw [pushWords, haddr, ih (by omega) (by omega), List.getElem_cons_succ]

end Libcr
