import Libcr.Foundations.Interleaving
import Libcr.Process.Options
import Libcr.Scheduler.Trace

/-!
# The threads of a process

`gEnv` holds environments, and a thread uses the one at the index that `get_pid` gives it.
It is made by the first call that needs it, from the options in force at that time. The
threads of a process interleave in any way; with the rule for interleaved components, what
holds on the runs of one scheduler holds for every environment of every run of the process.
Whether an environment is that of one thread depends on `get_pid`, which takes the index from
a fixed place behind `pthread_self()`.

Making an environment is one step here, and so is `coroutine_init_env`: no thread makes its
environment between the copy of the options to `gOptions` and the correction of the copy.
-/

namespace Libcr

/-- An index of `gEnv`. -/
abbrev Tid := Fin 204800

/-- What `get_pid` returns in each thread: the value behind `pthread_self()`, which does not
change. It is used as an index without a test; here it is one of `gEnv`. -/
structure Pids (θ : Type*) where
  getPid : θ → Int
  in_range : ∀ t, 0 ≤ getPid t ∧ getPid t < 204800

namespace Pids

variable {θ : Type*} (pids : Pids θ)

/-- The index that `get_curr_thread_env` reads. -/
def slot (t : θ) : Tid := ⟨(pids.getPid t).toNat, by have := pids.in_range t; omega⟩

theorem slot_eq_iff {t t' : θ} : pids.slot t = pids.slot t' ↔ pids.getPid t = pids.getPid t' := by
  have ht := pids.in_range t
  have ht' := pids.in_range t'
  rw [slot, slot, Fin.mk.injEq]
  omega

end Pids

/-- `env_t`, with the size that the stacks of its coroutines were made with. -/
structure Env where
  sys : Sys
  arg : Arg
  stackSize : BitVec 32

/-- `do_init_curr_thread_env`, at the clock reading `tick`. -/
def doInitCurrThreadEnv (o : Options) (tick : Nat) : Env where
  sys := Sys.init tick o.taskPerThread
  arg := .null
  stackSize := o.stackSize

/-- Is the thread in user code, where it can call the library? -/
def Sys.inUser (s : Sys) : Bool :=
  match s.curr with
  | none => false
  | some c =>
      match s.pc c with
      | .user _ => true
      | _ => false

/-- What a thread does. The reading `tick` is the one of `alloc_timer`, if the call
makes the environment. -/
inductive ThreadCall
  | initEventloop (arg : Arg) (tick : Nat)
  | getEpollContext (tick : Nat)
  | act (a : Act) (tick : Nat)

/-- The calls that begin by making the environment of a thread that has none, and the
clock reading they then take. -/
def ThreadCall.makes : ThreadCall → Option Nat
  | .initEventloop _ tick => some tick
  | .getEpollContext tick => some tick
  | .act (.newTask _) tick => some tick
  | .act (.eventloop _) tick => some tick
  | .act _ _ => none

/-- A call by a thread that has an environment. -/
def Env.call (e : Env) : ThreadCall → Option Env
  | .initEventloop arg _ => if e.sys.inUser then some { e with arg := arg } else none
  | .getEpollContext _ => if e.sys.inUser then some e else none
  | .act a _ => (e.sys.step a).map fun sys => { e with sys := sys }

/-- A call by any thread. Without an environment `coroutine_self` is null, so that the
hooked functions go straight to the system. -/
def threadCall (o : Options) (env : Option Env) (call : ThreadCall) : Option (Option Env) :=
  match env with
  | some e => (e.call call).map some
  | none =>
      match call.makes with
      | some tick => ((doInitCurrThreadEnv o tick).call call).map some
      | none =>
          match call with
          | .act .self _ => some none
          | .act (.close _) _ => some none
          | _ => none

/-- `coroutine_thread_arg`. -/
def coroutineThreadArg (env : Option Env) : Arg :=
  match env with
  | none => .null
  | some e => e.arg

/-- `gOptions` and `gEnv`. -/
abbrev Process := Parts Tid Options (Option Env)

/-- `coroutine_init_env`, or a call by one of the threads. -/
abbrev ProcessAct := PartsAct Tid Options ThreadCall

namespace Process

/-- A process that has just been started. -/
def start : Process where
  shared := Options.zero
  part := fun _ => none

/-- One step of a process. -/
def step : Process → ProcessAct → Option Process :=
  Parts.step (fun _ o => coroutineInitEnv o) threadCall

/-- `gOptions` after some steps. -/
def optionsAfter (acts : List ProcessAct) : Options :=
  Parts.sharedAfter (fun _ o => coroutineInitEnv o) Options.zero acts

/-- The calls of a thread, or for an environment, each with the options in force. -/
def history {θ : Type*} [DecidableEq θ] (t : θ) (acts : List (PartsAct θ Options ThreadCall)) :
    List (Options × ThreadCall) :=
  Parts.history (fun _ o => coroutineInitEnv o) t Options.zero acts

/-- One step of a process, by a thread that finds its environment with `get_pid`. -/
def threadStep {θ : Type*} (pids : Pids θ) (p : Process)
    (a : PartsAct θ Options ThreadCall) : Option Process :=
  step p (a.rename pids.slot)

end Process

/-- What the last `coroutine_init_eventloop` was given. -/
def lastArg (arg : Arg) (calls : List (Options × ThreadCall)) : Arg :=
  calls.foldl (fun a x => match x.2 with
    | .initEventloop b _ => b
    | _ => a) arg

/-- What a call by a thread with an environment does. -/
theorem Env.call_spec {e e' : Env} {call : ThreadCall} (h : e.call call = some e') (o : Options) :
    Reaches Sys.step always e.sys e'.sys ∧ e'.arg = lastArg e.arg [(o, call)] ∧
      e'.stackSize = e.stackSize := by
  cases call with
  | initEventloop arg tick =>
      obtain ⟨-, he⟩ := Option.ite_none_right_eq_some.mp h
      obtain rfl := Option.some.inj he
      exact ⟨Reaches.refl _, rfl, rfl⟩
  | getEpollContext tick =>
      obtain ⟨-, he⟩ := Option.ite_none_right_eq_some.mp h
      obtain rfl := Option.some.inj he
      exact ⟨Reaches.refl _, rfl, rfl⟩
  | act a tick =>
      obtain ⟨sys, hsys, rfl⟩ := Option.map_eq_some_iff.mp h
      exact ⟨(Reaches.refl _).snoc trivial hsys, rfl, rfl⟩

/-- A thread keeps its environment, and what it does to it is a run of its scheduler. -/
theorem exec_some {e : Env} {env' : Option Env} {calls : List (Options × ThreadCall)}
    (h : exec (Parts.ownStep threadCall) (some e) calls = some env') :
    ∃ e', env' = some e' ∧ Reaches Sys.step always e.sys e'.sys ∧
      e'.arg = lastArg e.arg calls ∧ e'.stackSize = e.stackSize := by
  induction calls generalizing e with
  | nil =>
      obtain rfl := Option.some.inj h
      exact ⟨e, rfl, Reaches.refl _, rfl, rfl⟩
  | cons x rest ih =>
      obtain ⟨env₁, hcall, hrest⟩ := Option.bind_eq_some_iff.mp h
      obtain ⟨e₁, he₁, rfl⟩ := Option.map_eq_some_iff.mp hcall
      obtain ⟨hreach₁, harg₁, hstack₁⟩ := Env.call_spec he₁ x.1
      obtain ⟨e', rfl, hreach, harg, hstack⟩ := ih hrest
      refine ⟨e', rfl, hreach₁.trans hreach, ?_, hstack.trans hstack₁⟩
      rw [harg, harg₁]
      rfl

/-- The options in force and the clock reading at the first call that needs an
environment. -/
def madeAt (calls : List (Options × ThreadCall)) : Option (Options × Nat) :=
  calls.findSome? fun x => x.2.makes.map fun tick => (x.1, tick)

/-- The environment of a thread after its calls: none as long as no call needed one;
otherwise it was made with the options then in force, and has since gone through a run
of the scheduler. -/
inductive ThreadState (calls : List (Options × ThreadCall)) : Option Env → Prop
  | none (hmade : madeAt calls = none) : ThreadState calls none
  | made {o : Options} {tick : Nat} {e : Env} (hmade : madeAt calls = some (o, tick))
      (hreach : Sys.Reached always tick o.taskPerThread e.sys)
      (harg : e.arg = lastArg .null calls) (hstack : e.stackSize = o.stackSize) :
      ThreadState calls (some e)

theorem exec_none {env' : Option Env} {calls : List (Options × ThreadCall)}
    (h : exec (Parts.ownStep threadCall) none calls = some env') : ThreadState calls env' := by
  induction calls with
  | nil =>
      obtain rfl := Option.some.inj h
      exact ThreadState.none rfl
  | cons x rest ih =>
      obtain ⟨env₁, hcall, hrest⟩ := Option.bind_eq_some_iff.mp h
      obtain ⟨o, call⟩ := x
      cases hmakes : call.makes with
      | some tick =>
          -- the first call that needs an environment
          simp only [Parts.ownStep, threadCall, hmakes] at hcall
          obtain ⟨e₁, he₁, rfl⟩ := Option.map_eq_some_iff.mp hcall
          obtain ⟨hreach₁, harg₁, hstack₁⟩ := Env.call_spec he₁ o
          obtain ⟨e', rfl, hreach, harg, hstack⟩ := exec_some hrest
          apply ThreadState.made _ (hreach₁.trans hreach) _ (hstack.trans hstack₁)
          · simp [madeAt, hmakes]
          · rw [harg, harg₁]
            rfl
      | none =>
          have hkeep : env₁ = none ∧ ∀ arg, lastArg arg [(o, call)] = arg := by
            simp only [Parts.ownStep, threadCall, hmakes] at hcall
            split at hcall
            · exact ⟨(Option.some.inj hcall).symm, fun _ => rfl⟩
            · exact ⟨(Option.some.inj hcall).symm, fun _ => rfl⟩
            · simp at hcall
          obtain ⟨rfl, hlast⟩ := hkeep
          have hskip : madeAt ((o, call) :: rest) = madeAt rest := by simp [madeAt, hmakes]
          cases ih hrest with
          | none hmade => exact ThreadState.none (hskip.trans hmade)
          | made hmade hreach harg hstack =>
              apply ThreadState.made (hskip.trans hmade) hreach _ hstack
              rw [harg]
              change _ = lastArg (lastArg .null [(o, call)]) rest
              rw [hlast]

/-- Calls that need no environment do not set the argument. -/
theorem lastArg_of_not_made {calls : List (Options × ThreadCall)}
    (hmade : madeAt calls = none) (arg : Arg) : lastArg arg calls = arg := by
  induction calls with
  | nil => rfl
  | cons x rest ih =>
      rw [madeAt, List.findSome?_eq_none_iff, List.forall_mem_cons,
        ← List.findSome?_eq_none_iff] at hmade
      obtain ⟨hx, hrest⟩ := hmade
      obtain ⟨o, call⟩ := x
      cases call with
      | initEventloop b tick => simp [ThreadCall.makes] at hx
      | getEpollContext tick => exact ih hrest
      | act a tick => exact ih hrest

theorem ThreadState.coroutineThreadArg_eq {calls : List (Options × ThreadCall)}
    {env : Option Env} (h : ThreadState calls env) :
    coroutineThreadArg env = lastArg .null calls := by
  cases h with
  | none hmade => exact (lastArg_of_not_made hmade .null).symm
  | made hmade hreach harg hstack => exact harg

namespace Process

theorem threadState {acts : List ProcessAct} {p : Process} (h : exec step start acts = some p)
    (tid : Tid) : ThreadState (history tid acts) (p.part tid) :=
  exec_none ((Parts.exec_iff.mp h).2 tid)

theorem exec_threadStep {θ : Type*} (pids : Pids θ) (p : Process)
    (acts : List (PartsAct θ Options ThreadCall)) :
    exec (threadStep pids) p acts = exec step p (acts.map (PartsAct.rename pids.slot)) := by
  induction acts generalizing p with
  | nil => rfl
  | cons a rest ih => exact Option.bind_congr fun q _ => ih q

end Process

/-- In a pool without tasks no function of a task is ever called. -/
theorem Sys.Reached.pool_pos_of_called {ok : Sys → Act → Prop} {tick : Nat} {size : Int} {s : Sys}
    (h : Sys.Reached ok tick size s) {t : TaskId} {f : Fun} {arg : Arg}
    (hcalled : .called t f arg ∈ s.trace) : 0 < size.toNat := by
  revert hcalled
  refine h.induction (P := fun s => .called t f arg ∈ s.trace → 0 < size.toNat) ?_ ?_
  · intro hmem
    exact absurd (init_trace hmem) (by simp [Obs.ofCreation])
  · intro u a v _ hinv _ htr ih hmem
    obtain ⟨os, htrace, hrec⟩ := htr.records hinv
    rw [htrace, List.mem_append] at hmem
    cases hmem with
    | inl hold => exact ih hold
    | inr hnew =>
        have ha := hrec _ hnew
        cases htr with
        | full =>
            have hnil : os = [] := List.append_right_eq_self.mp htrace.symm
            simp [hnil] at hnew
        | spawn hcurr hpc ht hfree => exact Nat.zero_lt_of_lt ht
        | callback ht => exact Nat.zero_lt_of_lt ht
        | finish ht => exact Nat.zero_lt_of_lt ht
        | _ => simp [Act.records] at ha

/-- In a pool without tasks `new_task` fails. -/
theorem Inv.newTask_of_empty {s : Sys} (h : Inv 0 s) (c : CoId) (ph : Phase) (attr : TaskAttr) :
    s.newTask c ph attr = (s, -1) := by
  have hfree : s.pool.free = none := by
    apply h.pool.free_none_iff.mpr
    intro t ht
    omega
  simp [Sys.newTask, hfree]

namespace Process

/-- A thread whose environment was made while the options in force provided for no tasks
stays without tasks for ever, also when `coroutine_init_env` is called later: every
`coroutine_new_task` returns `-1` and changes nothing, and no function is ever called.
Before the first `coroutine_init_env` the options are such. -/
theorem never_runs_a_task {before after : List ProcessAct} {tid : Tid} {call : ThreadCall}
    {tick : Nat} {p : Process}
    (h : exec step start (before ++ .own tid call :: after) = some p)
    (hfirst : madeAt (history tid before) = none) (hmakes : call.makes = some tick)
    (hoptions : (optionsAfter before).taskPerThread ≤ 0) :
    ∃ e, p.part tid = some e ∧
      (∀ c ph attr, e.sys.newTask c ph attr = (e.sys, -1)) ∧
      ∀ t f arg, .called t f arg ∉ e.sys.trace := by
  have hhistory : history tid (before ++ .own tid call :: after) =
      history tid before ++ (optionsAfter before, call) ::
        Parts.history (fun _ o => coroutineInitEnv o) tid (optionsAfter before) after := by
    rw [history, Parts.history_append, Parts.history_own_self]
    rfl
  have hmade : madeAt (history tid (before ++ .own tid call :: after)) =
      some (optionsAfter before, tick) := by
    rw [madeAt, hhistory, List.findSome?_append, ← madeAt, hfirst]
    simp [hmakes]
  have hstate := threadState h tid
  generalize p.part tid = env at hstate
  cases hstate with
  | none hnone => simp [hnone] at hmade
  | @made o tick' e hmade' hreach harg hstack =>
      have ho : o = optionsAfter before := by
        rw [hmade', Option.some.injEq, Prod.mk.injEq] at hmade
        exact hmade.1
      have hempty : o.taskPerThread.toNat = 0 := by
        rw [ho]
        exact Int.toNat_of_nonpos hoptions
      refine ⟨e, rfl, ?_, ?_⟩
      · have hinv := hreach.inv
        rw [hempty] at hinv
        exact hinv.newTask_of_empty
      · intro t f arg hmem
        have hpos := hreach.pool_pos_of_called hmem
        omega

/-- The first thread of a process asks for the event loop before it gives the options:
its pool stays empty although a thousand tasks are configured afterwards. -/
theorem never_runs_a_task_early :
    ∃ p e, exec step start ([] ++ .own 1 (.initEventloop .null 1000) ::
        [.share ⟨0, 1000⟩, .own 1 (.act (.newTask plainAttr) 0)]) = some p ∧
      p.part 1 = some e ∧ p.shared.taskPerThread = 1000 ∧
      e.sys.newTask .main .main plainAttr = (e.sys, -1) := by
  have hrun : (exec step start ([] ++ .own 1 (.initEventloop .null 1000) ::
      [.share ⟨0, 1000⟩, .own 1 (.act (.newTask plainAttr) 0)])).isSome := by
    decide +kernel
  obtain ⟨p, hp⟩ := Option.isSome_iff_exists.mp hrun
  obtain ⟨e, he, hnew, -⟩ := never_runs_a_task hp rfl rfl (Int.le_refl 0)
  have hshared : p.shared.taskPerThread = 1000 := by
    rw [(Parts.exec_iff.mp hp).1]
    rfl
  exact ⟨p, e, hp, he, hshared, hnew .main .main plainAttr⟩

/-- The options in force are the zeroes of the start or have been brought into range. -/
theorem zero_or_fit {acts : List ProcessAct} {tid : Tid} :
    ∀ x ∈ history tid acts, x.1 = Options.zero ∨ x.1.Fit :=
  Parts.forall_history (P := fun o => o = Options.zero ∨ o.Fit)
    (fun _ o => Or.inr (coroutineInitEnv_fit o)) (Or.inl rfl) tid acts

theorem mem_of_madeAt {calls : List (Options × ThreadCall)} {o : Options} {tick : Nat}
    (h : madeAt calls = some (o, tick)) : ∃ call, (o, call) ∈ calls := by
  obtain ⟨x, hx, hmap⟩ := List.exists_of_findSome?_eq_some h
  obtain ⟨tick', -, heq⟩ := Option.map_eq_some_iff.mp hmap
  obtain ⟨rfl, -⟩ := Prod.mk.injEq .. ▸ heq
  exact ⟨x.2, hx⟩

/-- No function of a task ever runs on a small or misaligned stack, whatever options were
given and when: in every run of a process, an environment in which a function was called made
the stacks of its coroutines with a whole number of pages between 128 KiB and 8 MiB. On
such a stack, wherever `malloc` placed it, a coroutine starts with the alignment of a
function entry, inside the stack and less than 24 bytes below its upper end. -/
theorem stack_of_called {acts : List ProcessAct} {p : Process}
    (h : exec step start acts = some p) {tid : Tid} {e : Env} (he : p.part tid = some e)
    {t : TaskId} {f : Fun} {arg : Arg} (hcalled : .called t f arg ∈ e.sys.trace) :
    2 ^ 17 ≤ e.stackSize.toNat ∧ e.stackSize.toNat ≤ 2 ^ 23 ∧ e.stackSize.toNat % 4096 = 0 ∧
      ∀ sp : Word, sp.toNat + e.stackSize.toNat ≤ 2 ^ 64 →
        let rsp := entryStack sp (e.stackSize.signExtend 64)
        (rsp + 8).toNat % 16 = 0 ∧ rsp.toNat + 8 ≤ sp.toNat + e.stackSize.toNat ∧
          sp.toNat + e.stackSize.toNat < rsp.toNat + 24 := by
  have hstate := threadState h tid
  rw [he] at hstate
  cases hstate with
  | @made o tick _ hmade hreach harg hstack =>
      have hpos := hreach.pool_pos_of_called hcalled
      have hfit : o.Fit := by
        obtain ⟨call, hmem⟩ := mem_of_madeAt hmade
        cases zero_or_fit _ hmem with
        | inl hzero =>
            -- without options there are no tasks
            rw [show o = Options.zero from hzero] at hpos
            simp [Options.zero] at hpos
        | inr hfit => exact hfit
      rw [hstack]
      refine ⟨hfit.min_le, hfit.le_max, hfit.whole_pages, ?_⟩
      intro sp hfits
      refine ⟨entryStack_aligned sp _, ?_⟩
      have hsize := hfit.toNat_signExtend
      rw [← hsize] at hfits ⊢
      exact entryStack_near (by have := hfit.min_le; omega) hfits

/-- A thread that runs a task after 1 MiB and one byte were asked for. -/
theorem stack_of_called_once :
    ∃ p e, exec step start
        [.share ⟨1048577, 2⟩, .own 3 (.act (.newTask plainAttr) 1000)] = some p ∧
      p.part 3 = some e ∧ e.stackSize = 1052672 ∧ e.stackSize.toNat % 4096 = 0 := by
  have hrun : (exec step start
      [.share ⟨1048577, 2⟩, .own 3 (.act (.newTask plainAttr) 1000)]).bind (fun p =>
        (p.part 3).map fun e => decide (.called 1 (.user 0) (.user 0) ∈ e.sys.trace) &&
          decide (e.stackSize = 1052672)) = some true := by
    decide +kernel
  obtain ⟨p, hp, henv⟩ := Option.bind_eq_some_iff.mp hrun
  obtain ⟨e, he, htest⟩ := Option.map_eq_some_iff.mp henv
  rw [Bool.and_eq_true, decide_eq_true_iff, decide_eq_true_iff] at htest
  exact ⟨p, e, hp, he, htest.2, (stack_of_called hp he htest.1).2.2.1⟩

end Process

end Libcr
