import Libcr.Foundations.Runs
import Libcr.Hook.Expiry

/-!
# Descriptors of a process

The table of tracked descriptors next to the kernel. The hooked functions run as in
the other modules, with arbitrary answers of the native functions; the kernel says
which answers are possible and what they mean for its own table. A file is given a
new serial number whenever it is opened, so that a descriptor number that is used
again can be told from the old one, and beside the table it is noted which file a
descriptor was when its entry was created. Only the specification reads the note.

A call runs without interruption but for the waits of `accept`, between which other
coroutines call. Unrelated files are opened at any time.
-/

namespace Libcr

/-- An open file: which one it is, and its status flags. -/
structure OpenFile where
  serial : Nat
  flags : BitVec 32
  deriving DecidableEq

def oRdwr : BitVec 32 := 2

/-- The descriptors of the process as the kernel has them. -/
structure Kernel where
  files : Fd → Option OpenFile
  next : Nat

namespace Kernel

/-- Descriptor `fd` becomes a new file. -/
def openFile (k : Kernel) (fd : Fd) (flags : BitVec 32) : Kernel where
  files := Function.update k.files fd (some ⟨k.next, flags⟩)
  next := k.next + 1

/-- What a native function does when it returns `ret`, where that answer is possible.
A descriptor that is open is closed whatever `close` returns. -/
def answer (k : Kernel) (ret : Int) : NativeCall → Option Kernel
  | .socket nonblock =>
      if ret < 0 then some k
      else if k.files ret = none then
        some (k.openFile ret (if nonblock then oRdwr ||| oNonblock else oRdwr))
      else none
  | .accept listenFd =>
      if ret < 0 then some k
      else if k.files listenFd ≠ none ∧ k.files ret = none then some (k.openFile ret oRdwr)
      else none
  | .close fd =>
      match k.files fd with
      | some _ => some { k with files := Function.update k.files fd none }
      | none => if ret < 0 then some k else none
  | .getfl fd =>
      match k.files fd with
      | some f => if BitVec.ofInt 32 ret = f.flags then some k else none
      | none => if ret < 0 then some k else none
  | .setfl fd flags =>
      match k.files fd with
      | some f =>
          if ret = 0 then
            some { k with files := Function.update k.files fd (some { f with flags := flags }) }
          else none
      | none => if ret < 0 then some k else none
  | .transfer _ _ _ _ | .connect _ | .select _ => some k

/-- The native calls of a log, one after the other. -/
def run (k : Kernel) : List IoObs → Option Kernel
  | [] => some k
  | .native call ret :: log => (k.answer ret call).bind fun k' => k'.run log
  | .waited _ _ _ _ :: log => k.run log

end Kernel

/-- `socket`. Without room for an entry it writes `lp->domain` through `NULL`. -/
def HookSys.socket (st : HookSys) (nonblock : Bool) : Option (Int × HookSys) :=
  let r := st.native (.socket nonblock)
  if ¬ st.isEnableSysHook then some r
  else if r.1 < 0 then some r
  else
    let st := r.2.allocByFd r.1
    if (st.getByFd r.1).isNone then none
    else
      let flags := st.fcntlGetfl r.1
      some (r.1, (flags.2.fcntlSetfl r.1 (BitVec.ofInt 32 flags.1 ||| oNonblock)).2)

/-- `accept` from where the native function has answered up to its next wait or its
return. -/
def acceptSettle (listenFd : Fd) : Outcome → Outcome
  | .inl p =>
      if p.ret < 0 ∧ p.st.errno = Errno.eagain then .inl p
      else HookSys.acceptTurn listenFd p
  | .inr r => .inr r

/-- The state a call is in. -/
def Outcome.st (o : Outcome) : HookSys := Sum.elim (fun p => p.st) (fun r => r.2) o

/-- The descriptor that an `accept` with hooks on has returned. -/
def Outcome.acceptedFd : Outcome → List Fd
  | .inl _ => []
  | .inr r => if r.1 < 0 then [] else [r.1]

/-- The descriptors of the process, the table, the serial number each descriptor had
when its entry was created, and the `accept` calls that wait. -/
structure Proc where
  kernel : Kernel
  table : Fd → Option RpcHook
  born : Fd → Option Nat
  accepting : Nat → Option (Fd × Progress)

/-- A call, made by a caller that sees `st` but for the table, the end of a wait, or an
unrelated file that is opened. The main coroutine calls like a task with hooks off. -/
inductive ProcOp
  | socket (st : HookSys) (nonblock : Bool)
  | accept (caller : Nat) (st : HookSys) (listenFd : Fd)
  | resume (caller : Nat) (natives : Stream' NativeAnswer) (wait : WaitAnswer)
  | setfl (st : HookSys) (fd : Fd) (param : BitVec 32)
  | close (st : HookSys) (fd : Fd)
  | openFile (fd : Fd) (flags : BitVec 32)

namespace Proc

/-- What the caller sees, with the table as it is. -/
def view (p : Proc) (st : HookSys) : HookSys := { st with table := p.table, log := [] }

/-- The end of a call that created entries for `created`, where the answers of the native
functions are possible. -/
def commit (p : Proc) (st : HookSys) (created : List Fd) : Option Proc :=
  (p.kernel.run st.log).map fun k =>
    { p with
      kernel := k
      table := st.table
      born := fun fd => if fd ∈ created then (k.files fd).map OpenFile.serial else p.born fd }

/-- Where `accept` has come to. -/
def setAccepting (p : Proc) (caller : Nat) (listenFd : Fd) (o : Outcome) : Proc :=
  { p with
    accepting := Function.update p.accepting caller
      (o.elim (fun pr => some (listenFd, pr)) fun _ => none) }

def step (p : Proc) : ProcOp → Option Proc
  | .socket st nonblock =>
      ((p.view st).socket nonblock).bind fun r =>
        p.commit r.2 (if st.isEnableSysHook ∧ 0 ≤ r.1 then [r.1] else [])
  | .accept caller st listenFd =>
      match p.accepting caller with
      | some _ => none
      | none =>
          let st := p.view st
          let o := acceptSettle listenFd (st.accept listenFd 0)
          let created := if st.isEnableSysHook then
            (if (st.getByFd listenFd).isNone then [listenFd] else []) ++ o.acceptedFd else []
          (p.commit o.st created).map fun p => p.setAccepting caller listenFd o
  | .resume caller natives wait =>
      match p.accepting caller with
      | none => none
      | some (listenFd, pr) =>
          let st := { p.view pr.st with
            natives := natives
            waits := Stream'.const { wait with table := p.table } }
          let o := acceptSettle listenFd (HookSys.acceptTurn listenFd { pr with st := st })
          (p.commit o.st o.acceptedFd).map fun p => p.setAccepting caller listenFd o
  | .setfl st fd param => p.commit ((p.view st).fcntlSetfl fd param).2 []
  | .close st fd => p.commit ((p.view st).close fd).2 []
  | .openFile fd flags =>
      if 0 ≤ fd ∧ p.kernel.files fd = none then
        some { p with kernel := p.kernel.openFile fd flags }
      else none

/-- The process before its first call: nothing is tracked. -/
def initial (kernel : Kernel) : Proc := ⟨kernel, fun _ => none, fun _ => none, fun _ => none⟩

end Proc

/-- `gSocketFd[fd]` is not `NULL`. -/
def Tracked (table : Fd → Option RpcHook) (fd : Fd) : Prop :=
  (-1 < fd ∧ fd < kSocketFds) ∧ (table fd).isSome

/-- `O_NONBLOCK` is set. -/
def HasNonblock (flags : BitVec 32) : Prop := flags &&& oNonblock = oNonblock

/-- Every tracked descriptor is open, is the file it was when its entry was created, and
does not block. -/
def Proc.InStep (p : Proc) : Prop :=
  ∀ fd, Tracked p.table fd → ∃ f, p.kernel.files fd = some f ∧
    p.born fd = some f.serial ∧ HasNonblock f.flags

end Libcr
