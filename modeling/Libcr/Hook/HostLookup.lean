import Mathlib.Data.BitVec
import Libcr.Foundations.Heap
import Libcr.Foundations.Runs

/-!
# Host lookups

`coroutine_gethostbyname` of `hook_sys_call.c` with the data specific to a coroutine that it
is built on, `coroutine_getspecific` and `coroutine_setspecific` of `coroutine_impl.c` and
the key of `coroutine_specific.c`. Every coroutine has a `hostbuf_wrap` of its own, whose
buffer grows while `gethostbyname_r` reports that it is too small.

`gethostbyname_r` waits for its sockets by way of the hooked `poll`, so that other coroutines
run in the middle of a lookup. A lookup is therefore cut at each call of it; the callers of all
threads interleave in any way. Whether an allocation succeeds is chosen from outside, except
that `malloc` refuses more than `PTRDIFF_MAX` bytes. Following a pointer that is null or whose
block has been freed, or giving `gethostbyname_r` less than it is told, is a `Fault`. A coroutine
keeps its data for good, since nothing in the library calls `coroutine_free`.
-/

namespace Libcr

namespace HostLookup

/-- `pthread_key_t`. -/
abbrev Key := Nat

abbrev Ptr := Nat

/-- The coroutine that runs: none or the main one of a thread, or one made by
`coroutine_new`. -/
inductive Caller
  | thread (t : Nat)
  | coroutine (c : Nat)
  deriving DecidableEq

/-- `hostbuf_wrap`. The contents of the `struct hostent`, with what it points to, are a
number. -/
structure HostBuf where
  host : Nat
  buffer : Ptr
  bufferSize : BitVec 64
  hostErrno : Int
  deriving DecidableEq

/-- What a block holds. -/
inductive Block
  | wrap (w : HostBuf)
  | bytes (size : Nat) (content : Nat)
  deriving DecidableEq

inductive Fault
  /-- A pointer that is null or freed was followed. -/
  | access (p : Ptr)
  /-- The buffer is smaller than `gethostbyname_r` is told. -/
  | overrun (p : Ptr)
  deriving DecidableEq

def erange : Int := 34

/-- `NETDB_INTERNAL`. -/
def netdbInternal : Int := -1

/-- What `gethostbyname_r` answers: its value, `*h_errnop` afterwards, whether it set `*result`
to the `struct hostent`, and what it wrote there. -/
structure HostAnswer where
  ret : Int
  hErrno : Int
  found : Bool
  entry : Nat

/-- Which of the calls succeed that a lookup may begin with. -/
structure Given where
  calloc : Bool
  setspecific : Bool
  malloc : Bool

/-- What a run shows. -/
inductive Obs
  /-- `coroutine_gethostbyname` was called. -/
  | entered (c : Caller)
  /-- `gethostbyname_r` was called with a buffer of this size. -/
  | attempt (c : Caller) (size : Nat)
  /-- `coroutine_gethostbyname` returned: a pointer with what it points to, or `NULL`. -/
  | returned (c : Caller) (host : Option (Ptr × Nat))
  deriving DecidableEq

/-- The key, the keys that were ever created for it and those of the user, the data specific to
each coroutine, the heap, and the lookups that are in `gethostbyname_r`, with their local
variable. -/
structure State where
  key : Key
  hostKeys : List Key
  userKeys : List Key
  spec : Caller → Key → Ptr
  heap : Heap Block
  calls : Caller → Option Ptr
  fault : Option Fault
  log : List Obs

namespace State

/-- Before `coroutine_init_env`. -/
def start : State where
  key := 0
  hostKeys := []
  userKeys := []
  spec := fun _ _ => 0
  heap := Heap.empty
  calls := fun _ => none
  fault := none
  log := []

def emit (s : State) (os : List Obs) : State := { s with log := s.log ++ os }

/-- `coroutine_getspecific`. -/
def coroutineGetspecific (s : State) (c : Caller) (key : Key) : Ptr := s.spec c key

/-- The data `value` for a caller and a key. -/
def setSpec (s : State) (c : Caller) (key : Key) (value : Ptr) : State :=
  { s with spec := Function.update s.spec c (Function.update (s.spec c) key value) }

/-- `coroutine_setspecific`; `ok` says that `pthread_setspecific` succeeds. -/
def coroutineSetspecific (s : State) (c : Caller) (key : Key) (value : Ptr) (ok : Bool) :
    Int × State :=
  match c with
  | .thread _ => if ok then (0, s.setSpec c key value) else (-1, s)
  | .coroutine _ => (0, s.setSpec c key value)

/-- `malloc`. -/
def malloc (s : State) (size : BitVec 64) (ok : Bool) : Ptr × State :=
  if ok ∧ size.toNat < 2 ^ 63 then
    (s.heap.next, { s with heap := s.heap.alloc (.bytes size.toNat 0) })
  else (0, s)

/-- `calloc(1, sizeof(hostbuf_wrap))`. -/
def callocWrap (s : State) (ok : Bool) : Ptr × State :=
  if ok then (s.heap.next, { s with heap := s.heap.alloc (.wrap ⟨0, 0, 0, 0⟩) }) else (0, s)

/-- `free`. -/
def free (s : State) (p : Ptr) : Except Fault State :=
  if p = 0 then .ok s
  else if (s.heap.blocks p).isSome then .ok { s with heap := s.heap.free p }
  else .error (.access p)

/-- The `hostbuf_wrap` at `p`. -/
def wrapAt (s : State) (p : Ptr) : Except Fault HostBuf :=
  match s.heap.blocks p with
  | some (.wrap w) => .ok w
  | _ => .error (.access p)

/-- Overwrite the `hostbuf_wrap` at `p`. -/
def setWrap (s : State) (p : Ptr) (w : HostBuf) : State :=
  { s with heap := s.heap.write p (.wrap w) }

/-- The `hostbuf_wrap` of the caller, made on its first lookup. -/
def hostbufWrap (s : State) (c : Caller) (given : Given) : Except Fault (Ptr × State) :=
  let p := s.coroutineGetspecific c s.key
  if p = 0 then do
    let (p, s) := s.callocWrap given.calloc
    let (ret, s) := s.coroutineSetspecific c s.key p given.setspecific
    if ret ≠ 0 then
      let s ← s.free p
      return (0, s)
    else return (p, s)
  else return (p, s)

/-- A buffer that has grown is given back, and one of 1024 bytes made where there is none. -/
def readyBuffer (s : State) (p : Ptr) (ok : Bool) : Except Fault State := do
  let w ← s.wrapAt p
  let (w, s) ←
    if w.buffer ≠ 0 ∧ w.bufferSize > 1024 then do
      let s ← s.free w.buffer
      pure ({ w with buffer := 0 }, s)
    else pure (w, s)
  if w.buffer = 0 then
    let (q, s) := s.malloc 1024 ok
    return s.setWrap p { w with buffer := q, bufferSize := 1024 }
  else return s

/-- `gethostbyname_r` is called. -/
def attempt (s : State) (c : Caller) (p : Ptr) : Except Fault State := do
  let w ← s.wrapAt p
  match s.heap.blocks w.buffer with
  | some (.bytes size _) =>
      if w.bufferSize.toNat ≤ size then
        return { s with calls := Function.update s.calls c (some p) }.emit
          [.attempt c w.bufferSize.toNat]
      else .error (.overrun w.buffer)
  | _ => .error (.access w.buffer)

/-- `coroutine_gethostbyname` up to the first call of `gethostbyname_r`. -/
def coroutineGethostbyname (s : State) (c : Caller) (name : Option Nat) (given : Given) :
    Except Fault State :=
  let s := s.emit [.entered c]
  if name = none then return s.emit [.returned c none]
  else do
    let (p, s) ← s.hostbufWrap c given
    let s ← s.readyBuffer p given.malloc
    s.attempt c p

/-- `gethostbyname`; `hooks` is the value of `is_enable_sys_hook`. The native function works on
memory of its own. -/
def gethostbyname (s : State) (c : Caller) (hooks : Bool) (name : Option Nat) (given : Given) :
    Except Fault State :=
  if ¬ hooks then return s else s.coroutineGethostbyname c name given

/-- What `gethostbyname_r` writes. -/
def fill (s : State) (p : Ptr) (a : HostAnswer) : Except Fault (HostBuf × State) := do
  let w ← s.wrapAt p
  match s.heap.blocks w.buffer with
  | some (.bytes size _) =>
      let w := { w with host := a.entry, hostErrno := a.hErrno }
      let s := { s with heap := s.heap.write w.buffer (.bytes size a.entry) }
      return (w, s.setWrap p w)
  | _ => .error (.access w.buffer)

/-- `coroutine_gethostbyname` from a return of `gethostbyname_r` to the next call of it, or to
the end. -/
def resume (s : State) (c : Caller) (p : Ptr) (a : HostAnswer) (ok : Bool) :
    Except Fault State := do
  let (w, s) ← s.fill p a
  if a.ret = erange ∧ w.hostErrno = netdbInternal then
    let s ← s.free w.buffer
    let size := w.bufferSize * 2
    let (q, s) := s.malloc size ok
    let s := s.setWrap p { w with bufferSize := size, buffer := q }
    s.attempt c p
  else
    let host := if a.ret = 0 ∧ a.found then some (p, w.host) else none
    return { s with calls := Function.update s.calls c none }.emit [.returned c host]

end State

/-- What can happen next. -/
inductive Act
  /-- `coroutine_init_env` creates the key. -/
  | initEnv (key : Key)
  /-- The user creates a key. -/
  | createKey (key : Key)
  /-- The user sets the data for a key of theirs. -/
  | setspecific (c : Caller) (key : Key) (value : Ptr) (ok : Bool)
  | gethostbyname (c : Caller) (hooks : Bool) (name : Option Nat) (given : Given)
  /-- `gethostbyname_r` returns. -/
  | answer (c : Caller) (a : HostAnswer) (ok : Bool)

namespace State

/-- What `pthread_key_create` can return: no key that is in use. It always succeeds here, and
`pthread_key_delete` is left out, after which `coroutine_init_env` could get a key of the user
again, and with it what the coroutines still hold for it. -/
def unusedKey (s : State) (key : Key) : Bool :=
  decide (key < 1024 ∧ key ∉ s.hostKeys ∧ key ∉ s.userKeys)

/-- Hooks are on only for the coroutine of a task, and there are tasks only after
`coroutine_init_env`. -/
def mayHook (s : State) : Caller → Bool
  | .thread _ => false
  | .coroutine _ => s.hostKeys ≠ []

/-- What an action does; `none` when it is not possible. -/
def perform (s : State) : Act → Option (Except Fault State)
  | .initEnv key =>
      if s.unusedKey key then some (.ok { s with key := key, hostKeys := key :: s.hostKeys })
      else none
  | .createKey key =>
      if s.unusedKey key then some (.ok { s with userKeys := key :: s.userKeys }) else none
  | .setspecific c key value ok =>
      if s.calls c = none ∧ key ∈ s.userKeys then
        some (.ok (s.coroutineSetspecific c key value ok).2)
      else none
  | .gethostbyname c hooks name given =>
      if s.calls c = none ∧ (hooks → s.mayHook c) then some (s.gethostbyname c hooks name given)
      else none
  | .answer c a ok => (s.calls c).map fun p => s.resume c p a ok

/-- One step; after a fault there is none. -/
def step (s : State) (a : Act) : Option State :=
  if s.fault.isSome then none
  else (s.perform a).map fun r =>
    match r with
    | .ok s' => s'
    | .error f => { s with fault := some f }

end State

end HostLookup

end Libcr
