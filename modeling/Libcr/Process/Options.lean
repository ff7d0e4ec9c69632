import Libcr.Context.Resume
import Libcr.Scheduler.Step

/-!
# The options of a process

`coroutine_init_env` brings the options that the user gave into range and keeps them
in `gOptions`, where every thread finds them. A coroutine is made on a stack of the
size that stands there, and `context_make` computes from it where the stack starts.
-/

namespace Libcr

/-- `coroutine_options_t`. -/
structure Options where
  stackSize : BitVec 32
  taskPerThread : Int
  deriving DecidableEq

/-- `gOptions` before the first `coroutine_init_env`. -/
def Options.zero : Options where
  stackSize := 0
  taskPerThread := 0

/-- `kMinStackSize`. -/
def kMinStackSize : BitVec 32 := 128 * 1024

/-- `kMaxStackSize`. -/
def kMaxStackSize : BitVec 32 := 8 * 1024 * 1024

/-- The first test of `coroutine_init_env`. -/
def clampStackSize (stackSize : BitVec 32) : BitVec 32 :=
  if stackSize.slt kMinStackSize then kMinStackSize
  else if kMaxStackSize.slt stackSize then kMaxStackSize
  else stackSize

/-- The second test of `coroutine_init_env`. -/
def fillPage (stackSize : BitVec 32) : BitVec 32 :=
  if stackSize &&& 0xFFF#32 ≠ 0 then (stackSize &&& ~~~0xFFF#32) + 0x1000 else stackSize

/-- What `coroutine_init_env` leaves in `gOptions`. -/
def coroutineInitEnv (options : Options) : Options where
  stackSize := fillPage (clampStackSize options.stackSize)
  taskPerThread := Sys.taskPerThread options.taskPerThread

theorem toNat_and_page (x : BitVec 32) : (x &&& 0xFFF#32).toNat = x.toNat % 4096 := by
  rw [BitVec.toNat_and]
  exact Nat.and_two_pow_sub_one_eq_mod x.toNat 12

theorem toNat_and_not_page (x : BitVec 32) :
    (x &&& ~~~0xFFF#32).toNat = x.toNat / 4096 * 4096 := by
  have hmask : ∀ j : Fin 32, (~~~0xFFF#32).getLsbD j = decide (12 ≤ j.val) := by decide
  have hshift : x &&& ~~~0xFFF#32 = (x >>> 12) <<< 12 := by
    apply BitVec.eq_of_getLsbD_eq
    intro i hi
    rw [BitVec.getLsbD_and, hmask ⟨i, hi⟩, BitVec.getLsbD_shiftLeft, BitVec.getLsbD_ushiftRight]
    by_cases hlow : i < 12
    · simp [hlow]
    · simp [hi, hlow, Nat.not_lt.mp hlow]
  have hlt := x.isLt
  rw [hshift, BitVec.toNat_shiftLeft, BitVec.toNat_ushiftRight, Nat.shiftLeft_eq,
    Nat.shiftRight_eq_div_pow]
  omega

/-- A size that is not a whole number of pages is taken up to the next one. -/
theorem toNat_fillPage {x : BitVec 32} (hx : x.toNat ≤ 2 ^ 31) :
    (fillPage x).toNat = (x.toNat + 4095) / 4096 * 4096 := by
  have hlow := toNat_and_page x
  have hhigh := toNat_and_not_page x
  unfold fillPage
  split
  · next h =>
      have hne : (x &&& 0xFFF#32).toNat ≠ 0 := fun h0 => h (BitVec.eq_of_toNat_eq h0)
      rw [BitVec.toNat_add]
      simp only [BitVec.reduceToNat]
      omega
  · next h =>
      have hzero : (x &&& 0xFFF#32).toNat = 0 := by
        rw [not_not.mp h]
        rfl
      omega

theorem clampStackSize_toInt (x : BitVec 32) :
    (clampStackSize x).toInt = max (2 ^ 17) (min (2 ^ 23) x.toInt) := by
  have hmin : kMinStackSize.toInt = 2 ^ 17 := by decide
  have hmax : kMaxStackSize.toInt = 2 ^ 23 := by decide
  unfold clampStackSize
  simp only [BitVec.slt_iff_toInt_lt, hmin, hmax]
  split
  · rw [hmin]
    omega
  · split
    · rw [hmax]
      omega
    · omega

/-- Options that `coroutine_init_env` has brought into range. -/
structure Options.Fit (o : Options) : Prop where
  min_le : 2 ^ 17 ≤ o.stackSize.toNat
  le_max : o.stackSize.toNat ≤ 2 ^ 23
  whole_pages : o.stackSize.toNat % 4096 = 0
  tasks : o.taskPerThread ≠ 0

/-- The clamped size is not negative. -/
theorem clampStackSize_toNat (x : BitVec 32) :
    ((clampStackSize x).toNat : Int) = max (2 ^ 17) (min (2 ^ 23) x.toInt) := by
  have hclamp := clampStackSize_toInt x
  have hlt := (clampStackSize x).isLt
  rw [BitVec.toInt_eq_toNat_cond] at hclamp
  split at hclamp <;> omega

/-- The bounds are whole pages, so that it does not matter that the size is brought into
range first. -/
theorem coroutineInitEnv_stackSize (o : Options) :
    ((coroutineInitEnv o).stackSize.toNat : Int) =
      max (2 ^ 17) (min (2 ^ 23) ((o.stackSize.toInt + 4095) / 4096 * 4096)) := by
  have hclamp := clampStackSize_toNat o.stackSize
  have hfill := toNat_fillPage (x := clampStackSize o.stackSize) (by omega)
  change ((fillPage (clampStackSize o.stackSize)).toNat : Int) = _
  omega

theorem coroutineInitEnv_fit (o : Options) : (coroutineInitEnv o).Fit := by
  have hsize := coroutineInitEnv_stackSize o
  refine ⟨by omega, by omega, by omega, ?_⟩
  change Sys.taskPerThread o.taskPerThread ≠ 0
  unfold Sys.taskPerThread kDefaultTaskPerThread
  split
  · decide
  · assumption

/-- On a stack of at least 32 bytes the entry stack pointer is just below the upper end. -/
theorem entryStack_near {sp size : Word} (hsize : 32 ≤ size.toNat)
    (hfit : sp.toNat + size.toNat ≤ 2 ^ 64) :
    (entryStack sp size).toNat + 8 ≤ sp.toNat + size.toNat ∧
      sp.toNat + size.toNat < (entryStack sp size).toNat + 24 := by
  have htop := toNat_and_neg_sixteen (sp + size)
  have hsum : (sp + size).toNat = (sp.toNat + size.toNat) % 2 ^ 64 := BitVec.toNat_add sp size
  unfold entryStack
  generalize (sp + size) &&& -16#64 = top at htop
  constructor <;> bv_omega

namespace Options.Fit

variable {o : Options}

/-- Options in range are kept as they are. -/
theorem coroutineInitEnv_eq (h : o.Fit) : coroutineInitEnv o = o := by
  have hsize := coroutineInitEnv_stackSize o
  have htoInt : o.stackSize.toInt = o.stackSize.toNat :=
    BitVec.toInt_eq_toNat_of_lt (by have := h.le_max; omega)
  have hstack : (coroutineInitEnv o).stackSize = o.stackSize := by
    apply BitVec.eq_of_toNat_eq
    have hmin := h.min_le
    have hmax := h.le_max
    have hpages := h.whole_pages
    omega
  have htasks : (coroutineInitEnv o).taskPerThread = o.taskPerThread := if_neg h.tasks
  cases o
  exact congr (congrArg Options.mk hstack) htasks

/-- The sign extension of `stack_size` to `size_t` does not change it. -/
theorem toNat_signExtend (h : o.Fit) : (o.stackSize.signExtend 64).toNat = o.stackSize.toNat := by
  have hmax := h.le_max
  have hmsb : o.stackSize.msb = false := by
    rw [BitVec.msb_eq_false_iff_two_mul_lt]
    omega
  rw [BitVec.signExtend_eq_setWidth_of_msb_false hmsb, BitVec.toNat_setWidth]
  omega

end Options.Fit

/-- For every `int`, the stack size that is kept is the one asked for, taken up to whole
pages and into range; and giving `coroutine_init_env` what it has kept changes nothing. -/
theorem options_normalised (o : Options) :
    ((coroutineInitEnv o).stackSize.toNat : Int) =
        max (2 ^ 17) (min (2 ^ 23) ((o.stackSize.toInt + 4095) / 4096 * 4096)) ∧
      coroutineInitEnv (coroutineInitEnv o) = coroutineInitEnv o :=
  ⟨coroutineInitEnv_stackSize o, (coroutineInitEnv_fit o).coroutineInitEnv_eq⟩

end Libcr
