import Libcr.Hook.Calls
import Libcr.Scheduler.Task

/-!
# The fcntl hook

The hooked `fcntl` of `hook_sys_call.c`. The variadic argument is the word in its
register, and each case of the `switch` reads it at the type the command takes. The
native function is a parameter, with a state of any type for what it does and what it
remembers of its calls: two runs that leave the same state made the same native calls.

The hook passes on the ten commands it has a case for. Every other command, and every
command on a negative descriptor, is answered by -1 and never reaches the native function.
-/

namespace Libcr

/-- The commands the hook has a case for. -/
inductive FcntlCmd
  | dupfd
  | getfd
  | setfd
  | getfl
  | setfl
  | getown
  | setown
  | getlk
  | setlk
  | setlkw
  deriving DecidableEq

namespace FcntlCmd

/-- The number of a command. -/
def number : FcntlCmd → Int
  | .dupfd => 0
  | .getfd => 1
  | .setfd => 2
  | .getfl => 3
  | .setfl => 4
  | .getlk => 5
  | .setlk => 6
  | .setlkw => 7
  | .setown => 8
  | .getown => 9

/-- The case of the `switch` a number leads to. -/
def ofNumber (cmd : Int) : Option FcntlCmd :=
  [dupfd, getfd, setfd, getfl, setfl, getown, setown, getlk, setlk, setlkw].find?
    fun c => c.number = cmd

theorem ofNumber_number (c : FcntlCmd) : ofNumber c.number = some c := by
  cases c <;> rfl

theorem ofNumber_eq_some {cmd : Int} {c : FcntlCmd} : ofNumber cmd = some c ↔ c.number = cmd := by
  constructor
  · intro h
    simpa using List.find?_some h
  · rintro rfl
    exact ofNumber_number c

end FcntlCmd

/-- The third argument of a native `fcntl`. -/
inductive FcntlArg
  | nothing
  | int (value : BitVec 32)
  | word (value : BitVec 64)
  deriving DecidableEq

/-- A call of the native `fcntl`. -/
structure FcntlCall where
  fildes : Fd
  cmd : Int
  arg : FcntlArg
  deriving DecidableEq

section

variable {σ : Type} (native : σ → FcntlCall → Int × σ)

/-- The case of a command whose argument is handed on as it is. -/
def handOn (st : HookSys) (k : σ) (call : FcntlCall) : Int × HookSys × σ :=
  let ret := native k call
  (ret.1, st, ret.2)

/-- `fcntl`. -/
def fcntl (st : HookSys) (k : σ) (fildes : Fd) (cmd : Int) (arg : BitVec 64) :
    Int × HookSys × σ :=
  if fildes < 0 then (-1, st, k)
  else
    let lp := st.getByFd fildes
    match FcntlCmd.ofNumber cmd with
    | some .dupfd => handOn native st k ⟨fildes, cmd, .int (arg.setWidth 32)⟩
    | some .getfd => handOn native st k ⟨fildes, cmd, .nothing⟩
    | some .setfd => handOn native st k ⟨fildes, cmd, .int (arg.setWidth 32)⟩
    | some .getfl => handOn native st k ⟨fildes, cmd, .nothing⟩
    | some .setfl =>
        let param := arg.setWidth 32
        let flag := if st.isEnableSysHook ∧ lp.isSome then param ||| oNonblock else param
        let ret := native k ⟨fildes, cmd, .int flag⟩
        (ret.1, if 0 = ret.1 ∧ lp.isSome then st.setUserFlag fildes param else st, ret.2)
    | some .getown => handOn native st k ⟨fildes, cmd, .nothing⟩
    | some .setown => handOn native st k ⟨fildes, cmd, .int (arg.setWidth 32)⟩
    | some .getlk => handOn native st k ⟨fildes, cmd, .word arg⟩
    | some .setlk => handOn native st k ⟨fildes, cmd, .word arg⟩
    | some .setlkw => handOn native st k ⟨fildes, cmd, .word arg⟩
    | none => (-1, st, k)

/-- The argument a command is owed, at the type it takes. A command that is not known may
take anything and is owed the whole word. -/
def owedArg (cmd : Int) (arg : BitVec 64) : FcntlArg :=
  match FcntlCmd.ofNumber cmd with
  | some .getfd | some .getfl | some .getown => .nothing
  | some .dupfd | some .setfd | some .setfl | some .setown => .int (arg.setWidth 32)
  | some .getlk | some .setlk | some .setlkw | none => .word arg

/-- What a transparent `fcntl` does: one native call with the arguments of the caller, but
for `O_NONBLOCK`, whose result is returned; and a successful `F_SETFL` records what
the caller asked for. -/
def transparentFcntl (st : HookSys) (k : σ) (fildes : Fd) (cmd : Int) (arg : BitVec 64) :
    Int × HookSys × σ :=
  let tracked := (st.getByFd fildes).isSome
  let setfl := cmd = FcntlCmd.setfl.number
  let passed :=
    if setfl ∧ st.isEnableSysHook ∧ tracked then
      FcntlArg.int (arg.setWidth 32 ||| oNonblock)
    else owedArg cmd arg
  let ret := native k ⟨fildes, cmd, passed⟩
  (ret.1, if setfl ∧ ret.1 = 0 ∧ tracked then st.setUserFlag fildes (arg.setWidth 32) else st,
    ret.2)

variable (st : HookSys) (k : σ) {fildes : Fd}

theorem fcntl_of_known (hfd : 0 ≤ fildes) (c : FcntlCmd) (arg : BitVec 64) :
    fcntl native st k fildes c.number arg = transparentFcntl native st k fildes c.number arg := by
  unfold fcntl transparentFcntl owedArg
  rw [if_neg (Int.not_lt.mpr hfd), FcntlCmd.ofNumber_number]
  cases c with
  | setfl =>
      by_cases htracked : (st.getByFd fildes).isSome
      · by_cases hhook : st.isEnableSysHook
        · simp [htracked, hhook, eq_comm]
        · simp [htracked, hhook, eq_comm]
      · simp [htracked]
  | _ => simp [handOn, FcntlCmd.number]

theorem fcntl_of_unknown {cmd : Int} (h : ¬ (0 ≤ fildes ∧ ∃ c : FcntlCmd, c.number = cmd))
    (arg : BitVec 64) : fcntl native st k fildes cmd arg = (-1, st, k) := by
  unfold fcntl
  split
  · rfl
  · next hfd =>
      cases hcmd : FcntlCmd.ofNumber cmd with
      | none => rfl
      | some c =>
          exact absurd ⟨Int.not_lt.mp hfd, c, FcntlCmd.ofNumber_eq_some.mp hcmd⟩ h

end

/-- The hook is transparent for the commands it knows on descriptors that are not
negative, and for no other. -/
theorem fcntl_transparent_iff (st : HookSys) (fildes : Fd) (cmd : Int) :
    (∀ (σ : Type) (native : σ → FcntlCall → Int × σ) (k : σ) (arg : BitVec 64),
        fcntl native st k fildes cmd arg = transparentFcntl native st k fildes cmd arg) ↔
      0 ≤ fildes ∧ ∃ c : FcntlCmd, c.number = cmd := by
  constructor
  · intro h
    by_contra hout
    -- A native function that counts its calls tells the two apart.
    have hcount := h Nat (fun calls _ => (0, calls + 1)) 0 0
    rw [fcntl_of_unknown _ _ _ hout] at hcount
    exact absurd (congrArg (fun r => r.2.2) hcount) (by simp [transparentFcntl])
  · rintro ⟨hfd, c, rfl⟩ σ native k arg
    exact fcntl_of_known native st k hfd c arg

/-- A caller with a new task and no descriptor in the table. -/
def newCaller : HookSys where
  task := Sys.freshTask 0 none
  table := fun _ => none
  errno := 0
  natives := Stream'.const ⟨0, 0⟩
  waits := Stream'.const ⟨0, 0, 0, fun _ => none⟩
  log := []

/-- `F_DUPFD_CLOEXEC`, which has the number 1030, makes no native call. -/
theorem fcntl_drops_dupfd_cloexec :
    fcntl (fun calls call => (7, calls ++ [call])) newCaller [] 5 1030 6 =
        (-1, newCaller, []) ∧
      transparentFcntl (fun calls call => (7, calls ++ [call])) newCaller [] 5 1030 6 =
        (7, newCaller, [⟨5, 1030, .word 6⟩]) := by
  refine ⟨fcntl_of_unknown _ _ _ ?_ _, rfl⟩
  rintro ⟨-, c, hc⟩
  cases c <;> exact absurd hc (by decide)

/-- The native `fcntl` for the two commands the other hooked functions use. -/
def HookSys.nativeFcntl (st : HookSys) (call : FcntlCall) : Int × HookSys :=
  match call.arg with
  | .int flags => st.native (.setfl call.fildes flags)
  | _ => st.native (.getfl call.fildes)

/-- How the other hooked functions read the flags of a descriptor. -/
theorem fcntlGetfl_eq (st : HookSys) (fildes : Fd) (arg : BitVec 64) :
    fcntl HookSys.nativeFcntl st st fildes FcntlCmd.getfl.number arg =
      ((st.fcntlGetfl fildes).1, st, (st.fcntlGetfl fildes).2) := by
  unfold fcntl HookSys.fcntlGetfl
  split
  · rfl
  · rfl

theorem setUserFlag_native (st : HookSys) (call : NativeCall) (fildes : Fd) (param : BitVec 32) :
    (st.native call).2.setUserFlag fildes param =
      { (st.native call).2 with table := (st.setUserFlag fildes param).table } := by
  have hsame : (st.native call).2.getByFd fildes = st.getByFd fildes := rfl
  unfold HookSys.setUserFlag
  rw [hsame]
  cases st.getByFd fildes with
  | none => rfl
  | some lp => rfl

/-- How they set them. -/
theorem fcntlSetfl_eq (st : HookSys) (fildes : Fd) (param : BitVec 32) :
    st.fcntlSetfl fildes param =
      let r := fcntl HookSys.nativeFcntl st st fildes FcntlCmd.setfl.number (param.setWidth 64)
      (r.1, { r.2.2 with table := r.2.1.table }) := by
  have hparam : (param.setWidth 64).setWidth 32 = param := by simp
  unfold fcntl HookSys.fcntlSetfl
  split
  · rfl
  · rw [FcntlCmd.ofNumber_number]
    dsimp only [HookSys.nativeFcntl]
    rw [hparam, setUserFlag_native]
    generalize hcall : NativeCall.setfl fildes _ = call
    by_cases hret : (st.native call).1 = 0
    · rw [if_pos hret]
      by_cases hlp : (st.getByFd fildes).isSome
      · rw [if_pos ⟨hret.symm, hlp⟩]
      · have hnone : st.setUserFlag fildes param = st := by
          rw [HookSys.setUserFlag, Option.not_isSome_iff_eq_none.mp hlp]
        rw [if_neg fun h => hlp h.2, hnone]
    · rw [if_neg hret, if_neg fun h => hret h.1.symm]
      rfl

end Libcr
