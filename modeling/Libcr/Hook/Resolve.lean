import Libcr.Foundations.LazyCells

/-!
# The pointers to the native functions

The interposed functions reach the native ones through the `g_sys_` pointers, which
start as `NULL` and are set by `HOOK_SYS_FUNC`. Here each function is given by the
order in which it sets and calls pointers, tests whether hooks are on for its caller,
and calls other interposed functions; the outcomes of all other tests are left open,
so that the functions may take any path that some data lets them take. `dlsym` always
finds the function. Calls run interleaved, one step at a time, which includes every
schedule of the coroutines.
-/

namespace Libcr

/-- The interposed functions. -/
inductive SysFn
  | socket
  | select
  | accept
  | connect
  | close
  | read
  | write
  | send
  | recv
  | poll
  | sleep
  | usleep
  | nanosleep
  | setsockopt
  | fcntl
  | gethostbyname
  deriving DecidableEq

/-- The text of an interposed function: a cell is a `g_sys_` pointer. -/
abbrev SysCode := Code SysFn SysFn

namespace SysCode

/-- `HOOK_SYS_FUNC(f); if (!is_enable_sys_hook(co)) return g_sys_f(..);` -/
def entry (f : SysFn) (next : SysCode) : SysCode :=
  .fill f <| .mode .done (.use f .ret) next

/-- `poll_inner`: with a pointer, a descriptor that cannot be watched is passed to it. -/
def pollInner (pollfunc : Option SysFn) (next : SysCode) : SysCode :=
  match pollfunc with
  | some f => .branch (.use f .done) .done next
  | none => next

/-- `wait_io_ready`: `poll`, and `close` when the deadline has passed. -/
def waitIoReady (next : SysCode) : SysCode :=
  .call .poll <| .branch (.call .close .done) .done next

def socket : SysCode :=
  entry .socket <| .use .socket <|
  -- fd < 0
  .branch .ret .done <|
  .fill .fcntl <| .call .fcntl <| .call .fcntl .ret

def select : SysCode :=
  entry .select <|
  -- no timeout
  .branch (.use .select .ret) .done <|
  .use .select <|
  -- some descriptor is ready
  .branch .ret .done <|
  .call .poll .ret

def accept : SysCode :=
  entry .accept <|
  -- the listening descriptor is not tracked
  .branch (.call .fcntl <| .call .fcntl .done) .done <|
  .use .accept <|
  .loop
    (.branch .brk .done <|
     .branch (pollInner none <|
        -- the deadline has passed
        .branch (.call .close .ret) .done <|
        .use .accept .done)
       -- an error other than EAGAIN
       .ret .done) <|
  .call .fcntl <| .call .fcntl .ret

def connect : SysCode :=
  entry .connect <| .use .connect <|
  -- not tracked, or not in progress
  .branch .ret .done <| .branch .ret .done <|
  .loop (.branch .brk .done <| .call .poll <| .branch .brk .done .done) .ret

def close : SysCode := entry .close <| .use .close .ret

/-- `read` and `recv`. -/
def receive (f : SysFn) : SysCode :=
  entry f <|
  -- not tracked
  .branch (.use f .ret) .done <|
  .loop
    (waitIoReady <| .branch .brk .done <|
     .use f <|
     -- an error or the end, and then the condition of the loop
     .branch .brk .done <| .branch .brk .done .done)
    .ret

/-- `write` and `send`. -/
def transmit (f : SysFn) : SysCode :=
  entry f <|
  -- not tracked
  .branch (.use f .ret) .done <|
  .use f <|
  -- nothing was written
  .branch .ret .done <|
  .loop
    (.branch .brk .done <|
     waitIoReady <| .branch .brk .done <|
     .use f <|
     .branch .brk .done .done)
    .ret

def poll : SysCode := entry .poll <| pollInner (some .poll) .ret

/-- `sleep`, `usleep` and `nanosleep`, by way of `doSleep`. -/
def timed (f : SysFn) : SysCode := entry f <| pollInner none .ret

def setsockopt : SysCode := entry .setsockopt <| .use .setsockopt .ret

/-- `fcntl` does the same for every caller: hooks only change the flags it passes. -/
def fcntl : SysCode :=
  .fill .fcntl <|
  -- a negative descriptor, and then a command that is none of the listed ones
  .branch .ret .done <| .branch (.use .fcntl .done) .done .ret

/-- `gethostbyname`, the one function without `HOOK_SYS_FUNC`. -/
def gethostbyname : SysCode := .mode .done (.use .gethostbyname .ret) .ret

end SysCode

/-- The text of every interposed function. -/
def SysFn.code : SysFn → SysCode
  | .socket => SysCode.socket
  | .select => SysCode.select
  | .accept => SysCode.accept
  | .connect => SysCode.connect
  | .close => SysCode.close
  | .read => SysCode.receive .read
  | .write => SysCode.transmit .write
  | .send => SysCode.transmit .send
  | .recv => SysCode.receive .recv
  | .poll => SysCode.poll
  | .sleep => SysCode.timed .sleep
  | .usleep => SysCode.timed .usleep
  | .nanosleep => SysCode.timed .nanosleep
  | .setsockopt => SysCode.setsockopt
  | .fcntl => SysCode.fcntl
  | .gethostbyname => SysCode.gethostbyname

/-- The main coroutine, or one that runs a task. -/
abbrev Caller := Option Nat

/-- `is_enable_sys_hook`: the main coroutine has no task. -/
def hooksOn (enable : Nat → Bool) : Caller → Bool
  | none => false
  | some t => enable t

/-- The calls that a run may begin. -/
def Begins (ok : Caller → SysFn → Prop) (_ : LazySys SysFn SysFn Caller) :
    LazyOp SysFn Caller → Prop
  | .enter c f => ok c f
  | .run _ _ => True

/-- Every function sets the pointer it calls, but for `gethostbyname` with hooks off. -/
theorem selfFilling_code {m : Bool} {f : SysFn} (h : ¬ (m = false ∧ f = .gethostbyname)) :
    f.code.selfFilling m = true := by
  cases m <;> cases f <;> first | rfl | exact absurd ⟨rfl, rfl⟩ h

/-- No interposed function calls `gethostbyname`. -/
theorem ne_gethostbyname_of_call {m : Bool} {f g : SysFn} (h : .inr g ∈ f.code.atoms m) :
    g ≠ .gethostbyname := by
  have hall : (f.code.atoms m).all (· != .inr .gethostbyname) = true := by
    cases m <;> cases f <;> rfl
  rintro rfl
  exact absurd (List.all_eq_true.mp hall _ h) (by decide)

/-- A caller with hooks off that calls `gethostbyname` first goes through `NULL`. -/
theorem gethostbyname_null {enable : Nat → Bool} {ok : Caller → SysFn → Prop} {c : Caller}
    (hoff : hooksOn enable c = false) (hok : ok c .gethostbyname) :
    ∃ s, Reaches (LazySys.step SysFn.code (hooksOn enable)) (Begins ok) LazySys.initial s ∧
      s.uses = [(.gethostbyname, false)] := by
  let entered := LazySys.initial.setFrames c [[.code SysCode.gethostbyname]]
  let tested := entered.setFrames c [[.code (.use .gethostbyname .ret), .code .ret]]
  have htested : LazySys.step SysFn.code (hooksOn enable) entered (.run c true) =
      some tested := by
    have hframes : entered.frames c = [[.code SysCode.gethostbyname]] := Function.update_self ..
    simp only [LazySys.step, hframes, SysCode.gethostbyname, hoff]
    rfl
  let called := { tested.setFrames c [[.code .ret, .code .ret]] with
    uses := [(.gethostbyname, false)] }
  have hcalled : LazySys.step SysFn.code (hooksOn enable) tested (.run c true) =
      some called := by
    have hframes : tested.frames c = [[.code (.use .gethostbyname .ret), .code .ret]] :=
      Function.update_self ..
    simp only [LazySys.step, hframes]
    rfl
  have hbegin : Begins ok LazySys.initial (.enter c .gethostbyname) := hok
  have hgo : ∀ u, Begins ok u (.run c true) := fun _ => trivial
  exact ⟨called, (((Reaches.refl _).snoc hbegin rfl).snoc (hgo entered) htested).snoc
    (hgo tested) hcalled, rfl⟩

/-- No `NULL` pointer is ever called exactly where no caller with hooks off calls
`gethostbyname`. -/
theorem native_resolved_iff (enable : Nat → Bool) (ok : Caller → SysFn → Prop) :
    (∀ s, Reaches (LazySys.step SysFn.code (hooksOn enable)) (Begins ok) LazySys.initial s →
      ∀ u ∈ s.uses, u.2 = true) ↔
    ∀ c, hooksOn enable c = false → ¬ ok c .gethostbyname := by
  constructor
  · intro h c hoff hok
    obtain ⟨s, hrun, huses⟩ := gethostbyname_null hoff hok
    have := h s hrun (.gethostbyname, false) (by rw [huses]; exact List.mem_singleton_self _)
    cases this
  · intro h s hrun
    have hbegins : ∀ u op, Begins ok u op → ∀ c f, op = .enter c f →
        ¬ (hooksOn enable c = false ∧ f = .gethostbyname) := by
      rintro u op hop c f rfl ⟨hoff, rfl⟩
      exact h c hoff hop
    have hfill : ∀ m f, ¬ (m = false ∧ f = SysFn.gethostbyname) →
        f.code.selfFilling m = true := fun _ _ => selfFilling_code
    have hcalls : ∀ m f, ¬ (m = false ∧ f = SysFn.gethostbyname) →
        ∀ g, .inr g ∈ f.code.atoms m → ¬ (m = false ∧ g = SysFn.gethostbyname) :=
      fun _ _ _ _ hg hbad => ne_gethostbyname_of_call hg hbad.2
    exact LazySys.uses_filled hfill hcalls (hrun.mono hbegins)

/-- `main` calls `gethostbyname`, and the program jumps to `NULL`. -/
theorem main_gethostbyname_null :
    ∃ s, Reaches (LazySys.step SysFn.code (hooksOn fun _ => true)) (Begins fun _ _ => True)
      LazySys.initial s ∧ s.uses = [(.gethostbyname, false)] :=
  gethostbyname_null (c := none) rfl trivial

end Libcr
