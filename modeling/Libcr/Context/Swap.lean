import Libcr.Foundations.ByteMemory
import Mathlib.Logic.Function.Basic

/-!
# Switching contexts on x86_64

`context_swap` is assembly: it pushes the registers of the caller into the `regs`
array of the context that is left, points the stack pointer at the `regs` array
of the context that is entered and pops them. The instructions it is made of are
executed here one by one, on a processor with sixteen registers and byte-addressed
memory. `context_make` is C and writes the same array by index.
-/

namespace Libcr

inductive Reg where
  | rax | rbx | rcx | rdx | rsi | rdi | rbp | rsp
  | r8 | r9 | r10 | r11 | r12 | r13 | r14 | r15
deriving DecidableEq, Repr

/-- The registers, the memory and where execution continues. The addresses of the
stores made so far are kept for the specification; no instruction reads them. -/
structure Cpu where
  reg : Reg → Word
  rip : Word
  mem : Memory
  stores : List Word

/-- The instructions `context_swap` uses, operands in the order of the source. -/
inductive Instr where
  | lea (disp : Word) (base dst : Reg)
  | mov (src dst : Reg)
  | push (src : Reg)
  | pushMem (disp : Word) (base : Reg)
  | pop (dst : Reg)
  | xorl (src dst : Reg)
  | ret

namespace Cpu

def set (c : Cpu) (r : Reg) (v : Word) : Cpu := { c with reg := Function.update c.reg r v }

def pushWord (c : Cpu) (v : Word) : Cpu :=
  { c with
    reg := Function.update c.reg .rsp (c.reg .rsp - 8)
    mem := storeWord c.mem (c.reg .rsp - 8) v
    stores := c.stores ++ [c.reg .rsp - 8] }

/-- The effect of one instruction. Only `ret` leaves the straight line of the code,
so only `ret` sets `rip`. -/
def exec (c : Cpu) : Instr → Cpu
  | .lea disp base dst => c.set dst (c.reg base + disp)
  | .mov src dst => c.set dst (c.reg src)
  | .push src => c.pushWord (c.reg src)
  | .pushMem disp base => c.pushWord (loadWord c.mem (c.reg base + disp))
  -- the stack pointer moves first, so that `popq %rsp` keeps the word it read
  | .pop dst => (c.set .rsp (c.reg .rsp + 8)).set dst (loadWord c.mem (c.reg .rsp))
  | .xorl src dst =>
      c.set dst (((c.reg src ^^^ c.reg dst).setWidth 32).setWidth 64)
  | .ret => { c.set .rsp (c.reg .rsp + 8) with rip := loadWord c.mem (c.reg .rsp) }

def execAll (c : Cpu) (code : List Instr) : Cpu := code.foldl exec c

end Cpu

/-- The part of `context_swap` that fills the `regs` array `%rdi` points to. -/
def saveCode : List Instr :=
  [.lea 8 .rsp .rax, .lea 112 .rdi .rsp, .push .rax, .push .rbx, .push .rcx, .push .rdx,
    .pushMem (-8) .rax, .push .rsi, .push .rdi, .push .rbp, .push .r8, .push .r9,
    .push .r12, .push .r13, .push .r14, .push .r15]

/-- The part of `context_swap` that takes the registers from the array `%rsi`
points to and goes where they say. -/
def restoreCode : List Instr :=
  [.mov .rsi .rsp, .pop .r15, .pop .r14, .pop .r13, .pop .r12, .pop .r9, .pop .r8,
    .pop .rbp, .pop .rdi, .pop .rsi, .pop .rax, .pop .rdx, .pop .rcx, .pop .rbx,
    .pop .rsp, .push .rax, .xorl .rax .rax, .ret]

def contextSwap : List Instr := saveCode ++ restoreCode

def kRDI : Nat := 7
def kRETAddr : Nat := 9
def kRSP : Nat := 13

/-- `sizeof(ctx->regs)`; the fields `size` and `sp` follow the array. -/
def kRegsSize : Nat := 112

/-- The address of `ctx->regs[i]`. -/
def slot (ctx : Word) (i : Nat) : Word := ctx + BitVec.ofNat 64 (8 * i)

/-- The stack pointer a fresh context starts with. -/
def entryStack (sp size : Word) : Word := ((sp + size) &&& -16#64) - 8

/-- `context_make`. -/
def contextMake (m : Memory) (ctx fn s : Word) : Memory :=
  let size := loadWord m (ctx + 112)
  let sp := loadWord m (ctx + 120)
  let m := fillBytes m ctx kRegsSize 0
  let m := storeWord m (slot ctx kRSP) (entryStack sp size)
  let m := storeWord m (slot ctx kRETAddr) fn
  storeWord m (slot ctx kRDI) s

/-- The words `context_swap` pushes for a caller that will continue as `k`, the first
one first: the last slot of the array comes first. -/
def Cpu.pushed (k : Cpu) : List Word :=
  [k.reg .rsp, k.reg .rbx, k.reg .rcx, k.reg .rdx, k.rip, k.reg .rsi, k.reg .rdi,
    k.reg .rbp, k.reg .r8, k.reg .r9, k.reg .r12, k.reg .r13, k.reg .r14, k.reg .r15]

/-- The index in `regs` at which a register is kept. -/
def slotOf : Reg → Option Nat
  | .r15 => some 0
  | .r14 => some 1
  | .r13 => some 2
  | .r12 => some 3
  | .r9 => some 4
  | .r8 => some 5
  | .rbp => some 6
  | .rdi => some kRDI
  | .rsi => some 8
  | .rdx => some 10
  | .rcx => some 11
  | .rbx => some 12
  | .rsp => some kRSP
  | .rax | .r10 | .r11 => none

/-- The word at `regs[i]` after the registers of `k` were pushed there. -/
def Cpu.image (k : Cpu) (i : Nat) : Word := k.pushed.getD (kRSP - i) 0

theorem execAll_append (c : Cpu) (code₁ code₂ : List Instr) :
    c.execAll (code₁ ++ code₂) = (c.execAll code₁).execAll code₂ :=
  List.foldl_append

theorem slot_eq_below {i : Nat} (hi : i ≤ kRSP) (ctx : Word) :
    slot ctx i = below (ctx + 112) (kRSP - i + 1) := by
  unfold slot below kRSP at *
  bv_omega

/-- Each word of a `regs` array lies in the array. -/
theorem inRange_of_slot {ctx x : Word} {i : Nat} (hi : i ≤ kRSP) (h : InRange (slot ctx i) 8 x) :
    InRange ctx kRegsSize x := by
  unfold InRange slot kRSP kRegsSize at *
  bv_omega

theorem pushed_not_inRange {ctx x : Word} {n : Nat} (hn : n ≤ 14)
    (h : ¬ InRange ctx kRegsSize x) : ¬ InRange (below (ctx + 112) n) (8 * n) x := by
  unfold InRange below kRegsSize at *
  bv_omega

theorem image_slotOf {r : Reg} {i : Nat} (h : slotOf r = some i) (k : Cpu) :
    k.image i = k.reg r := by
  cases r <;> cases h <;> rfl

theorem le_kRSP_of_slotOf {r : Reg} {i : Nat} (h : slotOf r = some i) : i ≤ kRSP := by
  cases r <;> cases h <;> decide

/-- The save phase fills the array with the registers as they will be when the
call has returned. -/
theorem saveCode_mem (c : Cpu) (h : Apart (c.reg .rsp) 8 (c.reg .rdi) kRegsSize) :
    (c.execAll saveCode).mem =
      pushWords c.mem (c.reg .rdi + 112) (c.exec .ret).pushed := by
  -- the return address is read after four of the pushes
  have hret : loadWord (pushWords c.mem (c.reg .rdi + 112)
      [c.reg .rsp + 8, c.reg .rbx, c.reg .rcx, c.reg .rdx]) (c.reg .rsp + 8 + -8) =
      loadWord c.mem (c.reg .rsp) := by
    rw [show c.reg .rsp + 8 + -8 = c.reg .rsp by bv_omega]
    refine loadWord_congr fun x hx => pushWords_of_not_inRange (by simp) ?_
    exact pushed_not_inRange (by simp) (h x hx)
  simp [pushWords] at hret
  simp [saveCode, Cpu.execAll, Cpu.exec, Cpu.set, Cpu.pushWord, Cpu.pushed, pushWords, hret]

theorem saveCode_stores (c : Cpu) :
    (c.execAll saveCode).stores =
      c.stores ++ (List.range 14).map fun j => slot (c.reg .rdi) (kRSP - j) := by
  simp [saveCode, Cpu.execAll, Cpu.exec, Cpu.set, Cpu.pushWord, List.range, List.range.loop,
    slot, kRSP, BitVec.sub_eq_add_neg, BitVec.add_assoc]

theorem saveCode_rsi (c : Cpu) : (c.execAll saveCode).reg .rsi = c.reg .rsi := by
  simp [saveCode, Cpu.execAll, Cpu.exec, Cpu.set, Cpu.pushWord]

theorem restoreCode_reg (c : Cpu) {r : Reg} {i : Nat} (h : slotOf r = some i) :
    (c.execAll restoreCode).reg r = loadWord c.mem (slot (c.reg .rsi) i) := by
  cases r <;> cases h <;>
    simp [restoreCode, Cpu.execAll, Cpu.exec, Cpu.set, Cpu.pushWord, slot, BitVec.add_assoc,
      kRDI, kRSP]

theorem restoreCode_exec (c : Cpu) :
    (c.execAll restoreCode).rip = loadWord c.mem (slot (c.reg .rsi) kRETAddr) ∧
      (c.execAll restoreCode).mem =
        storeWord c.mem (loadWord c.mem (slot (c.reg .rsi) kRSP) - 8)
          (loadWord c.mem (slot (c.reg .rsi) kRETAddr)) ∧
      (c.execAll restoreCode).stores =
        c.stores ++ [loadWord c.mem (slot (c.reg .rsi) kRSP) - 8] := by
  simp [restoreCode, Cpu.execAll, Cpu.exec, Cpu.set, Cpu.pushWord, slot, BitVec.add_assoc,
    kRETAddr, kRSP]

/-- The memory after the save phase of a switch called in state `c`. -/
def Cpu.savedMem (c : Cpu) : Memory :=
  pushWords c.mem (c.reg .rdi + 112) (c.exec .ret).pushed

/-- The effect of a switch, from the words `w` that the array of the entered context
holds once the registers are saved. -/
theorem contextSwap_exec (c : Cpu) (h : Apart (c.reg .rsp) 8 (c.reg .rdi) kRegsSize)
    {w : Nat → Word} (hw : ∀ i ≤ kRSP, loadWord c.savedMem (slot (c.reg .rsi) i) = w i) :
    (c.execAll contextSwap).rip = w kRETAddr ∧
      (∀ r i, slotOf r = some i → (c.execAll contextSwap).reg r = w i) ∧
      (c.execAll contextSwap).mem = storeWord c.savedMem (w kRSP - 8) (w kRETAddr) ∧
      (c.execAll contextSwap).stores =
        c.stores ++ ((List.range 14).map fun j => slot (c.reg .rdi) (kRSP - j)) ++
          [w kRSP - 8] := by
  have hmem : (c.execAll saveCode).mem = c.savedMem := saveCode_mem c h
  have hload : ∀ i ≤ kRSP, loadWord (c.execAll saveCode).mem
      (slot ((c.execAll saveCode).reg .rsi) i) = w i := by
    intro i hi
    rw [hmem, saveCode_rsi, hw i hi]
  obtain ⟨hrip, hmem', hstores⟩ := restoreCode_exec (c.execAll saveCode)
  rw [hload kRETAddr (by decide)] at hrip
  rw [hload kRETAddr (by decide), hload kRSP le_rfl, hmem] at hmem'
  rw [hload kRSP le_rfl, saveCode_stores] at hstores
  rw [contextSwap, execAll_append]
  refine ⟨hrip, fun r i hr => ?_, hmem', hstores⟩
  rw [restoreCode_reg _ hr, hload i (le_kRSP_of_slotOf hr)]

end Libcr
