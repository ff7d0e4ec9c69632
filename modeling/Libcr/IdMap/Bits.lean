import Mathlib.Data.BitVec
import Mathlib.Logic.Function.Basic

/-!
# The bits of an id map

`test_and_set_bit`, `clear_bit` and `find_next_zero_bit` of `idmap.cc`. The word of a bit
is found by a shift by `sizeof(unsigned long) + 1`, which is 9 and not 6, so that eight
offsets share a bit. `cell` names the bit an offset stands for; all that is proved about
the three functions is in terms of which cells are taken.
-/

namespace Libcr

namespace IdMap

/-- `ID_MAX_DEFAULT`. -/
def idMaxDefault : Nat := 0x8000

/-- `BITS_PER_PAGE`, of a page of `2 ^ 12` bytes. -/
def bitsPerPage : Nat := (1 <<< 12) * 8

/-- The words of `page_`. -/
abbrev Page := Nat → BitVec 64

/-- The index of the word the bit functions work on, where `sizeof(unsigned long)` is 8. -/
def wordOf (offset : Nat) : Nat := offset >>> (8 + 1)

/-- The mask of the bit in its word. -/
def maskOf (offset : Nat) : BitVec 64 := 1#64 <<< (offset &&& (8 * 8 - 1))

/-- `test_and_set_bit`: the answer and the page it leaves. -/
def testAndSetBit (offset : Nat) (page : Page) : Bool × Page :=
  let mask := maskOf offset
  let old := page (wordOf offset)
  (old &&& mask != 0, Function.update page (wordOf offset) (old ||| mask))

/-- `clear_bit`. -/
def clearBit (offset : Nat) (page : Page) : Page :=
  let mask := maskOf offset
  let old := page (wordOf offset)
  Function.update page (wordOf offset) (old &&& ~~~mask)

/-- `find_next_zero_bit`. -/
def findNextZeroBit (page : Page) (size offset : Nat) : Nat :=
  if offset < size then
    if ~~~(page (wordOf offset)) &&& maskOf offset ≠ 0 then offset
    else findNextZeroBit page size (offset + 1)
  else offset
termination_by size - offset

/-- The bit an offset stands for: the index of a word and the position in it. -/
def cell (offset : Nat) : Nat × Nat := (offset / 512, offset % 64)

/-- The bit of the offset is set. -/
def Taken (page : Page) (offset : Nat) : Prop :=
  (page (wordOf offset)).getLsbD (offset % 64) = true

theorem wordOf_eq (offset : Nat) : wordOf offset = offset / 512 :=
  Nat.shiftRight_eq_div_pow offset 9

theorem maskOf_eq (offset : Nat) : maskOf offset = BitVec.twoPow 64 (offset % 64) := by
  rw [maskOf, BitVec.twoPow, Nat.and_two_pow_sub_one_eq_mod offset 6]

theorem cell_eq_iff {a b : Nat} : cell a = cell b ↔ wordOf a = wordOf b ∧ a % 64 = b % 64 := by
  rw [cell, cell, Prod.mk.injEq, wordOf_eq, wordOf_eq]

theorem and_maskOf_ne_zero (word : BitVec 64) (offset : Nat) :
    word &&& maskOf offset ≠ 0 ↔ word.getLsbD (offset % 64) = true := by
  rw [maskOf_eq, BitVec.and_twoPow]
  split
  · next h =>
      have hbit : (BitVec.twoPow 64 (offset % 64)).getLsbD (offset % 64) = true := by
        simp [Nat.mod_lt offset (by decide : 0 < 64)]
      refine ⟨fun _ => h, fun _ hzero => ?_⟩
      rw [hzero] at hbit
      simp at hbit
  · next h => exact ⟨fun hzero => absurd rfl hzero, fun hbit => absurd hbit h⟩

theorem testAndSetBit_fst (page : Page) (offset : Nat) :
    (testAndSetBit offset page).1 = true ↔ Taken page offset := by
  rw [testAndSetBit, bne_iff_ne]
  exact and_maskOf_ne_zero _ _

/-- Setting a bit takes its cell. -/
theorem taken_testAndSetBit (page : Page) (offset other : Nat) :
    Taken (testAndSetBit offset page).2 other ↔ cell other = cell offset ∨ Taken page other := by
  have hlt : other % 64 < 64 := Nat.mod_lt other (by decide)
  rw [cell_eq_iff, Taken, Taken, testAndSetBit, maskOf_eq]
  by_cases hword : wordOf other = wordOf offset
  · simpa [hword, hlt] using or_comm
  · simp [hword]

/-- Clearing a bit frees its cell. -/
theorem taken_clearBit (page : Page) (offset other : Nat) :
    Taken (clearBit offset page) other ↔ cell other ≠ cell offset ∧ Taken page other := by
  have hlt : other % 64 < 64 := Nat.mod_lt other (by decide)
  rw [Ne, cell_eq_iff, Taken, Taken, clearBit, maskOf_eq]
  by_cases hword : wordOf other = wordOf offset
  · simpa [hword, hlt] using and_comm
  · simp [hword]

theorem not_and_maskOf (page : Page) (offset : Nat) :
    ~~~(page (wordOf offset)) &&& maskOf offset ≠ 0 ↔ ¬ Taken page offset := by
  rw [and_maskOf_ne_zero, Taken, BitVec.getLsbD_not]
  simp [Nat.mod_lt offset (by decide : 0 < 64)]

/-- The search stops at the first offset whose bit is clear, or at the end. -/
theorem findNextZeroBit_spec (page : Page) {size offset : Nat} (h : offset ≤ size) :
    offset ≤ findNextZeroBit page size offset ∧ findNextZeroBit page size offset ≤ size ∧
      (∀ o, offset ≤ o → o < findNextZeroBit page size offset → Taken page o) ∧
      (findNextZeroBit page size offset < size →
        ¬ Taken page (findNextZeroBit page size offset)) := by
  fun_induction findNextZeroBit page size offset with
  | case1 offset hlt hclear =>
      rw [not_and_maskOf] at hclear
      exact ⟨le_rfl, h, fun o hle hlt => absurd (hle.trans_lt hlt) (lt_irrefl _), fun _ => hclear⟩
  | case2 offset hlt hset ih =>
      rw [not_and_maskOf, not_not] at hset
      obtain ⟨hle, hsize, htaken, hclear⟩ := ih hlt
      refine ⟨by omega, hsize, ?_, hclear⟩
      intro o ho ho'
      rcases eq_or_lt_of_le ho with rfl | ho
      · exact hset
      · exact htaken o ho ho'
  | case3 offset hge =>
      exact ⟨le_rfl, h, fun o hle hlt => absurd (hle.trans_lt hlt) (lt_irrefl _),
        fun hlt => absurd hlt hge⟩

end IdMap

end Libcr
