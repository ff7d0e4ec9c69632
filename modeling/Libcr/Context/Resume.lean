import Libcr.Foundations.Runs
import Libcr.Context.Swap
import Mathlib.Data.Set.Pairwise.Basic

/-!
# Resuming a context

A machine runs user code, which may do anything to the registers and to the memory
outside the `regs` arrays, and calls `context_make` and `context_swap` in any order.
What every context was last given is recorded beside the machine: the registers of
the caller of the switch that left it, or the arguments of `context_make`. The
`regs` array of a context always holds the fourteen words of that record, so the
switch that enters the context continues as the record says.
-/

namespace Libcr

/-- What a context was last given: a switch out of it that continues as `k`, or
`context_make` with the stack the context then had. -/
inductive Given where
  | saved (k : Cpu)
  | made (fn s sp size : Word)

/-- The contents of the `regs` array. -/
def Given.regs : Given → Nat → Word
  | .saved k, i => k.image i
  | .made fn s sp size, i =>
      if i = kRDI then s else if i = kRETAddr then fn
      else if i = kRSP then entryStack sp size else 0

structure Machine where
  cpu : Cpu
  given : Word → Option Given

inductive MachineOp where
  | user (cpu : Cpu)
  | make (ctx fn s : Word)
  | swap

namespace Machine

/-- The context that is left by a switch, and the one that is entered. -/
def curr (m : Machine) : Word := m.cpu.reg .rdi

def pending (m : Machine) : Word := m.cpu.reg .rsi

/-- What `context_make` records about a context. -/
def made (m : Machine) (ctx fn s : Word) : Given :=
  .made fn s (loadWord m.cpu.mem (ctx + 120)) (loadWord m.cpu.mem (ctx + 112))

/-- The caller of a switch continues as if the call had returned at once. -/
def step (m : Machine) : MachineOp → Option Machine
  | .user cpu => some { m with cpu := cpu }
  | .make ctx fn s =>
      some { cpu := { m.cpu with mem := contextMake m.cpu.mem ctx fn s }
             given := Function.update m.given ctx (some (m.made ctx fn s)) }
  | .swap =>
      some { cpu := m.cpu.execAll contextSwap
             given := Function.update m.given m.curr (some (.saved (m.cpu.exec .ret))) }

end Machine

/-- No `regs` array has a byte in common with the word at `a`. -/
def OffRegs (ctxs : Set Word) (a : Word) : Prop := ∀ ctx ∈ ctxs, Apart a 8 ctx kRegsSize

/-- The `regs` arrays of `ctxs` are touched by `context_make` and `context_swap` only:
user code leaves them alone, and the stack word that holds the return address of a
switch, or that the first switch to a context will write, is not in one of them. -/
def OnlySwitches (ctxs : Set Word) (m : Machine) : MachineOp → Prop
  | .user cpu => ∀ ctx ∈ ctxs, ∀ x, InRange ctx kRegsSize x → cpu.mem x = m.cpu.mem x
  | .make ctx fn s => ctx ∈ ctxs ∧ OffRegs ctxs ((m.made ctx fn s).regs kRSP - 8)
  | .swap =>
      m.curr ∈ ctxs ∧ m.pending ∈ ctxs ∧ OffRegs ctxs (m.cpu.reg .rsp) ∧
        -- a context that was given nothing has an arbitrary stack pointer
        (m.given m.pending = none → m.pending ≠ m.curr →
          OffRegs ctxs (loadWord m.cpu.mem (slot m.pending kRSP) - 8))

/-- The array of `ctx` holds the words of `g`. -/
def Given.Held (g : Given) (mem : Memory) (ctx : Word) : Prop :=
  ∀ i ≤ kRSP, loadWord mem (slot ctx i) = g.regs i

/-- The array of `ctx` holds the words of `g`, and the stack word that the switch to
the context will write is in no array. -/
structure Given.Kept (ctxs : Set Word) (g : Given) (mem : Memory) (ctx : Word) : Prop where
  known : ctx ∈ ctxs
  held : g.Held mem ctx
  off : OffRegs ctxs (g.regs kRSP - 8)

/-- Every context that was given something keeps it. -/
def Keeps (ctxs : Set Word) (given : Word → Option Given) (mem : Memory) : Prop :=
  ∀ ctx g, given ctx = some g → g.Kept ctxs mem ctx

theorem Given.Held.congr {g : Given} {mem mem' : Memory} {ctx : Word} (h : g.Held mem ctx)
    (heq : ∀ x, InRange ctx kRegsSize x → mem' x = mem x) : g.Held mem' ctx := by
  intro i hi
  rw [← h i hi]
  exact loadWord_congr fun x hx => heq x (inRange_of_slot hi hx)

/-! ### What `context_make` leaves -/

theorem contextMake_of_not_inRange {mem : Memory} {ctx fn s x : Word}
    (h : ¬ InRange ctx kRegsSize x) : contextMake mem ctx fn s x = mem x := by
  have hslot : ∀ i ≤ kRSP, ¬ InRange (slot ctx i) 8 x :=
    fun i hi hx => h (inRange_of_slot hi hx)
  rw [contextMake, storeWord_of_not_inRange (hslot _ (by decide)),
    storeWord_of_not_inRange (hslot _ (by decide)),
    storeWord_of_not_inRange (hslot _ (by decide)), fillBytes_of_not_inRange h]

/-- Different words of an array have no byte in common. -/
theorem apart_slot {ctx : Word} {i j : Nat} (hi : i ≤ kRSP) (hj : j ≤ kRSP) (hne : i ≠ j) :
    Apart (slot ctx i) 8 (slot ctx j) 8 := by
  intro x hxi hxj
  unfold InRange slot kRSP at *
  bv_omega

theorem loadWord_fillBytes {mem : Memory} {ctx : Word} {i : Nat} (hi : i ≤ kRSP) :
    loadWord (fillBytes mem ctx kRegsSize 0) (slot ctx i) = 0 := by
  apply loadWord_eq_zero
  intro x hx
  exact if_pos (inRange_of_slot hi hx)

theorem contextMake_held (m : Machine) (ctx fn s : Word) :
    (m.made ctx fn s).Held (contextMake m.cpu.mem ctx fn s) ctx := by
  intro i hi
  have hother : ∀ {mem : Memory} {v : Word} {j : Nat}, j ≤ kRSP → i ≠ j →
      loadWord (storeWord mem (slot ctx j) v) (slot ctx i) = loadWord mem (slot ctx i) :=
    fun hj hne => loadWord_storeWord_of_apart (apart_slot hi hj hne)
  simp only [contextMake, Machine.made, Given.regs]
  by_cases h7 : i = kRDI
  · rw [if_pos h7, h7, loadWord_storeWord]
  · rw [if_neg h7, hother (by decide) h7]
    by_cases h9 : i = kRETAddr
    · rw [if_pos h9, h9, loadWord_storeWord]
    · rw [if_neg h9, hother (by decide) h9]
      by_cases h13 : i = kRSP
      · rw [if_pos h13, h13, loadWord_storeWord]
      · rw [if_neg h13, hother le_rfl h13, loadWord_fillBytes hi]

/-! ### What `context_swap` leaves -/

/-- The array of the context that is left holds the registers of the caller. -/
theorem saved_held (k : Cpu) (mem : Memory) (ctx : Word) :
    (Given.saved k).Held (pushWords mem (ctx + 112) k.pushed) ctx := by
  intro i hi
  have hlen : kRSP - i < k.pushed.length := by
    simp only [Cpu.pushed, List.length_cons, List.length_nil, kRSP]
    omega
  rw [slot_eq_below hi, loadWord_pushWords (by simp [Cpu.pushed]) hlen, Given.regs, Cpu.image,
    List.getD_eq_getElem?_getD, List.getElem?_eq_getElem hlen, Option.getD_some]

theorem savedMem_of_not_inRange {c : Cpu} {x : Word}
    (h : ¬ InRange (c.reg .rdi) kRegsSize x) : c.savedMem x = c.mem x :=
  pushWords_of_not_inRange (by simp [Cpu.pushed]) (pushed_not_inRange (by simp [Cpu.pushed]) h)

/-- Giving a context something new touches its own array only. -/
theorem Keeps.update {ctxs : Set Word}
    (hctxs : ctxs.Pairwise fun a b => Apart a kRegsSize b kRegsSize)
    {given : Word → Option Given} {mem mem' : Memory} (h : Keeps ctxs given mem)
    {ctx : Word} {g : Given} (hg : g.Kept ctxs mem' ctx)
    (hframe : ∀ x, ¬ InRange ctx kRegsSize x → mem' x = mem x) :
    Keeps ctxs (Function.update given ctx (some g)) mem' := by
  intro ctx' g' hg'
  by_cases heq : ctx' = ctx
  · subst heq
    rw [Function.update_self] at hg'
    cases hg'
    exact hg
  · rw [Function.update_of_ne heq] at hg'
    obtain ⟨hctx', hheld, hoff⟩ := h ctx' g' hg'
    refine ⟨hctx', hheld.congr fun x hx => hframe x ?_, hoff⟩
    exact hctxs hctx' hg.known heq x hx

theorem Keeps.congr {ctxs : Set Word} {given : Word → Option Given} {mem mem' : Memory}
    (h : Keeps ctxs given mem)
    (heq : ∀ ctx ∈ ctxs, ∀ x, InRange ctx kRegsSize x → mem' x = mem x) :
    Keeps ctxs given mem' := by
  intro ctx g hg
  obtain ⟨hctx, hheld, hoff⟩ := h ctx g hg
  exact ⟨hctx, hheld.congr (heq ctx hctx), hoff⟩

section Runs

variable {ctxs : Set Word} {m m' : Machine}

/-- The machine state after the save phase of a switch. -/
def Machine.givenSaved (m : Machine) : Word → Option Given :=
  Function.update m.given m.curr (some (.saved (m.cpu.exec .ret)))

theorem Keeps.savedMem (hctxs : ctxs.Pairwise fun a b => Apart a kRegsSize b kRegsSize)
    (h : Keeps ctxs m.given m.cpu.mem) (hcurr : m.curr ∈ ctxs)
    (hret : OffRegs ctxs (m.cpu.reg .rsp)) :
    Keeps ctxs m.givenSaved m.cpu.savedMem := by
  refine h.update hctxs ⟨hcurr, saved_held _ _ _, ?_⟩ fun x hx => savedMem_of_not_inRange hx
  have htop : (Given.saved (m.cpu.exec .ret)).regs kRSP - 8 = m.cpu.reg .rsp := by
    simp [Given.regs, image_slotOf (r := .rsp) rfl, Cpu.exec, Cpu.set]
  rwa [htop]

/-- The stack word a switch writes is in no array. -/
theorem Keeps.swap_offRegs (hctxs : ctxs.Pairwise fun a b => Apart a kRegsSize b kRegsSize)
    (h : Keeps ctxs m.given m.cpu.mem) (hok : OnlySwitches ctxs m .swap) :
    OffRegs ctxs (loadWord m.cpu.savedMem (slot m.pending kRSP) - 8) := by
  obtain ⟨hcurr, hpending, hret, hnone⟩ := hok
  have hsaved := h.savedMem hctxs hcurr hret
  cases hg : m.givenSaved m.pending with
  | some g =>
      obtain ⟨-, hheld, hoff⟩ := hsaved _ g hg
      rwa [hheld kRSP le_rfl]
  | none =>
      have hne : m.pending ≠ m.curr := by
        intro heq
        simp [Machine.givenSaved, heq] at hg
      rw [Machine.givenSaved, Function.update_of_ne hne] at hg
      have hload : loadWord m.cpu.savedMem (slot m.pending kRSP) =
          loadWord m.cpu.mem (slot m.pending kRSP) :=
        loadWord_congr fun x hx => savedMem_of_not_inRange
          (hctxs hpending hcurr hne x (inRange_of_slot le_rfl hx))
      rw [hload]
      exact hnone hg hne

/-- Every operation keeps what the contexts were given. -/
theorem Keeps.step (hctxs : ctxs.Pairwise fun a b => Apart a kRegsSize b kRegsSize)
    (h : Keeps ctxs m.given m.cpu.mem) {op : MachineOp} (hok : OnlySwitches ctxs m op)
    (hstep : m.step op = some m') : Keeps ctxs m'.given m'.cpu.mem := by
  cases op with
  | user cpu =>
      cases hstep
      exact h.congr hok
  | make ctx fn s =>
      cases hstep
      exact h.update hctxs ⟨hok.1, contextMake_held m ctx fn s, hok.2⟩
        fun x hx => contextMake_of_not_inRange hx
  | swap =>
      have hoff := h.swap_offRegs hctxs hok
      obtain ⟨hcurr, -, hret, -⟩ := hok
      obtain ⟨-, -, hmem, -⟩ := contextSwap_exec m.cpu (hret _ hcurr) fun _ _ => rfl
      cases hstep
      show Keeps ctxs m.givenSaved (m.cpu.execAll contextSwap).mem
      rw [hmem]
      exact (h.savedMem hctxs hcurr hret).congr fun ctx hctx x hx =>
        storeWord_of_not_inRange fun ha => hoff ctx hctx x ha hx

/-- In every run the arrays hold what their contexts were given. -/
theorem keeps_of_reaches (hctxs : ctxs.Pairwise fun a b => Apart a kRegsSize b kRegsSize)
    {c : Cpu} (hrun : Reaches Machine.step (OnlySwitches ctxs) ⟨c, fun _ => none⟩ m) :
    Keeps ctxs m.given m.cpu.mem :=
  hrun.invariant (P := fun m => Keeps ctxs m.given m.cpu.mem) (fun _ _ hg => by cases hg)
    fun _ _ _ _ h hok hstep => h.step hctxs hok hstep

/-! ### Where a switch continues -/

/-- The registers a function must preserve. -/
def calleeSaved : List Reg := [.rsp, .rbx, .rbp, .r12, .r13, .r14, .r15]

/-- How the switch from `before` to `after` has to continue a context. -/
def Given.Resumed (before after : Cpu) : Given → Prop
  | .saved k => after.rip = k.rip ∧ ∀ r ∈ calleeSaved, after.reg r = k.reg r
  | .made fn s sp size =>
      32 ≤ size.toNat → sp.toNat + size.toNat ≤ 2 ^ 64 →
        after.rip = fn ∧ after.reg .rdi = s ∧ (after.reg .rsp + 8).toNat % 16 = 0 ∧
          -- apart from the array of the context that is left, one word is written
          ∃ a, after.stores = before.stores ++
              ((List.range 14).map fun j => slot (before.reg .rdi) (kRSP - j)) ++ [a] ∧
            sp.toNat ≤ a.toNat ∧ a.toNat + 8 ≤ sp.toNat + size.toNat

theorem toNat_and_neg_sixteen (x : Word) : (x &&& -16#64).toNat = 16 * (x.toNat / 16) := by
  have hshift : x &&& -16#64 = (x >>> 4) <<< 4 := by
    apply BitVec.eq_of_getLsbD_eq
    intro i hi
    have hmask : ∀ j : Fin 64, (-16#64).getLsbD j = decide (4 ≤ j.val) := by decide
    have := hmask ⟨i, hi⟩
    rw [BitVec.getLsbD_and, BitVec.getLsbD_shiftLeft, BitVec.getLsbD_ushiftRight]
    by_cases h4 : i < 4 <;> simp_all
  rw [hshift, BitVec.toNat_shiftLeft, BitVec.toNat_ushiftRight, Nat.shiftLeft_eq,
    Nat.shiftRight_eq_div_pow, Nat.mod_eq_of_lt (by have := x.isLt; omega)]
  omega

theorem entryStack_aligned (sp size : Word) : (entryStack sp size + 8).toNat % 16 = 0 := by
  rw [entryStack, BitVec.sub_add_cancel, toNat_and_neg_sixteen]
  omega

/-- On a stack of at least 32 bytes there is room for the word below the entry stack
pointer. -/
theorem entryStack_room {sp size : Word} (hsize : 32 ≤ size.toNat)
    (hfit : sp.toNat + size.toNat ≤ 2 ^ 64) :
    sp.toNat ≤ (entryStack sp size - 8).toNat ∧
      (entryStack sp size - 8).toNat + 8 ≤ sp.toNat + size.toNat := by
  have htop := toNat_and_neg_sixteen (sp + size)
  have hsum : (sp + size).toNat = (sp.toNat + size.toNat) % 2 ^ 64 := BitVec.toNat_add sp size
  unfold entryStack
  generalize (sp + size) &&& -16#64 = top at htop
  constructor <;> bv_omega

/-- A switch continues the context it enters as that context was last left, with the
return address, the stack pointer and the preserved registers of just after the call,
whatever was switched to in between; a context that `context_make` prepared starts in
its function, on an aligned stack, and of the stack only a word inside it is written. -/
theorem context_switch_faithful
    (hctxs : ctxs.Pairwise fun a b => Apart a kRegsSize b kRegsSize)
    {c : Cpu} (hrun : Reaches Machine.step (OnlySwitches ctxs) ⟨c, fun _ => none⟩ m)
    (hok : OnlySwitches ctxs m .swap) (hstep : m.step .swap = some m')
    {g : Given} (hg : m'.given m.pending = some g) :
    g.Resumed m.cpu m'.cpu := by
  obtain ⟨hcurr, -, hret, -⟩ := hok
  have hsaved := (keeps_of_reaches hctxs hrun).savedMem hctxs hcurr hret
  cases hstep
  obtain ⟨hrip, hreg, -, hstores⟩ :=
    contextSwap_exec m.cpu (hret _ hcurr) (hsaved _ g hg).held
  cases g with
  | saved k =>
      refine ⟨hrip, fun r hr => ?_⟩
      have hslot : ∀ r ∈ calleeSaved, (slotOf r).isSome := by decide
      obtain ⟨i, hi⟩ := Option.isSome_iff_exists.mp (hslot r hr)
      rw [hreg r i hi]
      exact image_slotOf hi k
  | made fn s sp size =>
      intro hsize hfit
      refine ⟨hrip, hreg .rdi kRDI rfl, ?_, _, hstores, entryStack_room hsize hfit⟩
      rw [hreg .rsp kRSP rfl]
      exact entryStack_aligned sp size

end Runs

/-- Two contexts: the caller's at `0x1000`, and one at `0x2000` with a stack of 4096
bytes at `0x10000`. The caller will return to `0x401000`. -/
def callerCpu : Cpu where
  reg
    | .rdi => 0x1000
    | .rsi => 0x2000
    | .rsp => 0x8000
    | .rbx => 5
    | _ => 0
  rip := 0
  mem := storeWord (storeWord (storeWord (fun _ => 0) 0x2070 4096) 0x2078 0x10000)
    0x8000 0x401000
  stores := []

/-- The caller prepares the second context and switches to it. -/
def inSecond : Machine :=
  [MachineOp.make 0x2000 0x402000 7, .swap].foldl (fun m op => (m.step op).getD m)
    ⟨callerCpu, fun _ => none⟩

/-- The second context calls for a switch back, with its registers in use. -/
def leavingSecond : Machine :=
  { inSecond with cpu := { inSecond.cpu with reg := fun
      | .rdi => 0x2000
      | .rsi => 0x1000
      | .rsp => 0x10f00
      | .rbx => 77
      | r => inSecond.cpu.reg r } }

theorem offRegs_pair {a : Word} (h₁ : a.toNat + 8 ≤ 0x1000 ∨ 0x1070 ≤ a.toNat)
    (h₂ : a.toNat + 8 ≤ 0x2000 ∨ 0x2070 ≤ a.toNat) :
    OffRegs {0x1000, 0x2000} a := by
  intro ctx hctx x ha hx
  unfold InRange kRegsSize at *
  rcases hctx with rfl | rfl <;> bv_omega

theorem apart_pair :
    ({0x1000, 0x2000} : Set Word).Pairwise fun a b => Apart a kRegsSize b kRegsSize := by
  have h : Apart 0x1000 kRegsSize 0x2000 kRegsSize := apart_of_le (by decide) (by decide)
  intro a ha b hb hne
  rcases ha with rfl | rfl <;> rcases hb with rfl | rfl
  · exact absurd rfl hne
  · exact h
  · exact h.symm
  · exact absurd rfl hne

theorem leavingSecond_reached :
    Reaches Machine.step (OnlySwitches {0x1000, 0x2000}) ⟨callerCpu, fun _ => none⟩
      leavingSecond := by
  refine (((Reaches.refl _).snoc (a := .make 0x2000 0x402000 7) ⟨by simp, ?make⟩ rfl).snoc
    (a := .swap) ⟨Or.inl rfl, Or.inr rfl, ?ret, ?given⟩ rfl).snoc
    (a := .user leavingSecond.cpu) ?user rfl
  case make => exact offRegs_pair (by decide +kernel) (by decide +kernel)
  case ret => exact offRegs_pair (by decide +kernel) (by decide +kernel)
  case given =>
    intro hnone
    cases hnone
  case user =>
    intro _ _ _ _
    rfl

/-- The switch back returns to the caller, with its stack and its `rbx`. -/
theorem context_switch_faithful_back :
    (leavingSecond.cpu.execAll contextSwap).rip = 0x401000 ∧
      (leavingSecond.cpu.execAll contextSwap).reg .rsp = 0x8008 ∧
      (leavingSecond.cpu.execAll contextSwap).reg .rbx = 5 := by
  obtain ⟨hrip, hreg⟩ := context_switch_faithful apart_pair leavingSecond_reached
    ⟨Or.inr rfl, Or.inl rfl, offRegs_pair (by decide +kernel) (by decide +kernel),
      fun hnone => by cases hnone⟩ rfl (g := .saved _) rfl
  exact ⟨hrip.trans (by decide +kernel), (hreg .rsp (by decide)).trans (by decide +kernel),
    (hreg .rbx (by decide)).trans (by decide +kernel)⟩

end Libcr
