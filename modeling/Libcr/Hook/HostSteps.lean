import Mathlib.Tactic.Common
import Libcr.Hook.HostLookup

/-!
# The steps of host lookups

The invariant `Inv` of host lookups, on the blocks that the pointer variables hold, and `Effect`,
which says in closed form everything that a step can do in a state where the invariant holds.
-/

namespace Libcr

namespace HostLookup

/-- The pointer variables that hold blocks: the entries of `spec` under the keys of
`coroutine_init_env`, and the field `buffer` of what they point to. -/
inductive Part
  | wrap
  | buffer
  deriving DecidableEq

abbrev Slot := Caller × Key × Part

/-- The `hostbuf_wrap` at `p` is `w`, with a buffer of the size it says. -/
structure Furnished (h : Heap Block) (p : Ptr) (w : HostBuf) : Prop where
  blocks : h.blocks p = some (.wrap w)
  buffer : w.buffer ≠ 0
  bytes : ∃ content, h.blocks w.buffer = some (.bytes w.bufferSize.toNat content)
  size : ∃ i, w.bufferSize.toNat = 1024 * 2 ^ i
  small : w.bufferSize.toNat < 2 ^ 63

theorem Furnished.buffer_ne {h : Heap Block} {p : Ptr} {w : HostBuf} (hw : Furnished h p w) :
    w.buffer ≠ p := by
  intro heq
  obtain ⟨content, hbytes⟩ := hw.bytes
  rw [heq, hw.blocks] at hbytes
  cases hbytes

/-- What the pointer variables hold. -/
structure Held (s : State) (slot : Slot → Ptr) : Prop where
  owns : s.heap.Owns slot
  outside : ∀ c k part, k ∉ s.hostKeys → slot (c, k, part) = 0
  wrap : ∀ c k, k ∈ s.hostKeys → slot (c, k, .wrap) = s.spec c k
  none : ∀ c k, slot (c, k, .wrap) = 0 → slot (c, k, .buffer) = 0
  some : ∀ c k, slot (c, k, .wrap) ≠ 0 →
    ∃ w, Furnished s.heap (slot (c, k, .wrap)) w ∧ w.buffer = slot (c, k, .buffer)

/-- What holds between the steps. -/
structure Inv (s : State) : Prop where
  key : s.hostKeys ≠ [] → s.key ∈ s.hostKeys
  apart : ∀ k ∈ s.userKeys, k ∉ s.hostKeys
  unset : ∀ c k, k ∉ s.hostKeys → k ∉ s.userKeys → s.spec c k = 0
  held : ∃ slot, Held s slot
  calls : ∀ c p, s.calls c = some p → p ≠ 0 ∧ ∃ k ∈ s.hostKeys, s.spec c k = p

theorem inv_start : Inv State.start where
  key := fun h => absurd rfl h
  apart := fun _ hk => by cases hk
  unset := fun _ _ _ _ => rfl
  held :=
    ⟨fun _ => 0,
      { owns := Heap.owns_empty
        outside := fun _ _ _ _ => rfl
        wrap := fun _ _ hk => by cases hk
        none := fun _ _ _ => rfl
        some := fun _ _ h => absurd rfl h }⟩
  calls := fun _ _ h => by cases h

/-! ### What a step can do -/

namespace State

/-- The caller has a new `hostbuf_wrap`, filled with zeros. -/
def wrapped (s : State) (c : Caller) : State :=
  { s with heap := s.heap.alloc (.wrap ⟨0, 0, 0, 0⟩) }.setSpec c s.key s.heap.next

/-- The `hostbuf_wrap` `w` at `p` has a new buffer. -/
def fed (s : State) (p : Ptr) (w : HostBuf) (size : BitVec 64) : State :=
  { s with
    heap := (s.heap.alloc (.bytes size.toNat 0)).write p
      (.wrap { w with buffer := s.heap.next, bufferSize := size }) }

/-- It has a new buffer in the place of the old one. -/
def rebuffered (s : State) (p : Ptr) (w : HostBuf) (size : BitVec 64) : State :=
  ({ s with heap := s.heap.free w.buffer } : State).fed p w size

/-- `gethostbyname_r` has been called. -/
def attempted (s : State) (c : Caller) (p : Ptr) (size : BitVec 64) : State :=
  { s with calls := Function.update s.calls c (some p), log := s.log ++ [.attempt c size.toNat] }

/-- What `gethostbyname_r` has written into `w`. -/
def answered (w : HostBuf) (a : HostAnswer) : HostBuf :=
  { w with host := a.entry, hostErrno := a.hErrno }

/-- `gethostbyname_r` has written the `hostbuf_wrap` `w` at `p` and its buffer. -/
def filled (s : State) (p : Ptr) (w : HostBuf) (a : HostAnswer) : State :=
  { s with
    heap := (s.heap.write w.buffer (.bytes w.bufferSize.toNat a.entry)).write p
      (.wrap (answered w a)) }

/-- The lookup has returned. -/
def finished (s : State) (c : Caller) (host : Option (Ptr × Nat)) : State :=
  { s with calls := Function.update s.calls c none, log := s.log ++ [.returned c host] }

/-- An allocation that the action needs fails. -/
def Starves (s : State) : Act → Prop
  | .gethostbyname c hooks name given =>
      (s.calls c = none ∧ s.mayHook c = true) ∧ hooks = true ∧ name ≠ none ∧
        (s.spec c s.key = 0 ∧ (given.calloc = false ∨ given.malloc = false) ∨
          ∃ w, s.heap.blocks (s.spec c s.key) = some (.wrap w) ∧ w.bufferSize > 1024 ∧
            given.malloc = false)
  | .answer c a ok =>
      ∃ p w, s.calls c = some p ∧ s.heap.blocks p = some (.wrap w) ∧ a.ret = erange ∧
        a.hErrno = netdbInternal ∧ (ok = false ∨ 2 ^ 62 ≤ w.bufferSize.toNat)
  | _ => False

end State

/-- The steps of host lookups. -/
inductive Effect (s : State) : Act → Except Fault State → Prop
  | initEnv {key : Key} (hnew : s.unusedKey key = true) :
      Effect s (.initEnv key) (.ok { s with key := key, hostKeys := key :: s.hostKeys })
  | createKey {key : Key} (hnew : s.unusedKey key = true) :
      Effect s (.createKey key) (.ok { s with userKeys := key :: s.userKeys })
  | set {c : Caller} {key : Key} {value : Ptr} {ok : Bool} (hkey : key ∈ s.userKeys) :
      Effect s (.setspecific c key value ok) (.ok (s.setSpec c key value))
  /-- `pthread_setspecific` fails. -/
  | unset {c : Caller} {key : Key} {value : Ptr} {ok : Bool} :
      Effect s (.setspecific c key value ok) (.ok s)
  /-- Hooks are off. -/
  | native {c : Caller} {name : Option Nat} {given : Given} :
      Effect s (.gethostbyname c false name given) (.ok s)
  /-- There is no name. -/
  | nameless {c : Caller} {given : Given} (hcall : s.calls c = none) :
      Effect s (.gethostbyname c true none given)
        (.ok (s.emit [.entered c, .returned c none]))
  /-- The first lookup of a coroutine. -/
  | first {c : Caller} {name : Nat} {given : Given} (hcall : s.calls c = none)
      (hkey : s.key ∈ s.hostKeys) (hnone : s.spec c s.key = 0)
      (hgiven : given.calloc = true ∧ given.malloc = true) :
      Effect s (.gethostbyname c true (some name) given)
        (.ok ((((s.emit [.entered c]).wrapped c).fed s.heap.next ⟨0, 0, 0, 0⟩ 1024).attempted
          c s.heap.next 1024))
  /-- A lookup with the buffer of the one before. -/
  | again {c : Caller} {name : Nat} {given : Given} {w : HostBuf} (hcall : s.calls c = none)
      (hkey : s.key ∈ s.hostKeys) (hsome : s.spec c s.key ≠ 0)
      (hw : Furnished s.heap (s.spec c s.key) w) (hsize : w.bufferSize ≤ 1024) :
      Effect s (.gethostbyname c true (some name) given)
        (.ok ((s.emit [.entered c]).attempted c (s.spec c s.key) w.bufferSize))
  /-- A lookup after one whose buffer has grown. -/
  | renew {c : Caller} {name : Nat} {given : Given} {w : HostBuf} (hcall : s.calls c = none)
      (hkey : s.key ∈ s.hostKeys) (hsome : s.spec c s.key ≠ 0)
      (hw : Furnished s.heap (s.spec c s.key) w) (hgiven : given.malloc = true) :
      Effect s (.gethostbyname c true (some name) given)
        (.ok (((s.emit [.entered c]).rebuffered (s.spec c s.key) w 1024).attempted c
          (s.spec c s.key) 1024))
  /-- `gethostbyname_r` finds its buffer too small. -/
  | grow {c : Caller} {k : Key} {p : Ptr} {w : HostBuf} {a : HostAnswer} {ok : Bool}
      (hcall : s.calls c = some p) (hkey : k ∈ s.hostKeys) (hp : s.spec c k = p) (hsome : p ≠ 0)
      (hw : Furnished s.heap p w) (hsize : w.bufferSize.toNat < 2 ^ 62)
      (hretry : a.ret = erange ∧ a.hErrno = netdbInternal) (hok : ok = true) :
      Effect s (.answer c a ok)
        (.ok (((s.filled p w a).rebuffered p (State.answered w a) (w.bufferSize * 2)).attempted c p
          (w.bufferSize * 2)))
  | done {c : Caller} {k : Key} {p : Ptr} {w : HostBuf} {a : HostAnswer} {ok : Bool}
      (hcall : s.calls c = some p) (hkey : k ∈ s.hostKeys) (hp : s.spec c k = p) (hsome : p ≠ 0)
      (hw : Furnished s.heap p w) (hretry : ¬ (a.ret = erange ∧ a.hErrno = netdbInternal)) :
      Effect s (.answer c a ok)
        (.ok ((s.filled p w a).finished c
          (if a.ret = 0 ∧ a.found = true then some (p, a.entry) else none)))
  | starved {a : Act} (hstarves : s.Starves a) : Effect s a (.error (.access 0))

section Evaluation

variable {s : State} {c : Caller} {p : Ptr} {w : HostBuf}

theorem toNat_twice {x : BitVec 64} (hx : x.toNat < 2 ^ 63) : (x * 2).toNat = x.toNat * 2 := by
  have htwo : (2 : BitVec 64).toNat = 2 := rfl
  rw [BitVec.toNat_mul, htwo]
  apply Nat.mod_eq_of_lt
  omega

theorem setSpec_of_ne {key key' : Key} (hkey : key' ≠ key) (c c' : Caller) (value : Ptr) :
    (s.setSpec c key value).spec c' key' = s.spec c' key' := by
  by_cases hc : c' = c
  · subst hc
    simp [State.setSpec, Function.update_of_ne hkey]
  · simp [State.setSpec, Function.update_of_ne hc]

theorem wrapAt_eq (hw : s.heap.blocks p = some (.wrap w)) : s.wrapAt p = .ok w := by
  rw [State.wrapAt, hw]

/-- A call of `gethostbyname_r` with a buffer of the right size. -/
theorem attempt_ok {content : Nat} (hw : s.heap.blocks p = some (.wrap w))
    (hbytes : s.heap.blocks w.buffer = some (.bytes w.bufferSize.toNat content)) :
    s.attempt c p = .ok (s.attempted c p w.bufferSize) := by
  simp [State.attempt, wrapAt_eq hw, hbytes, bind, Except.bind, pure, Except.pure,
    State.attempted, State.emit]

/-- A call of `gethostbyname_r` without a buffer. -/
theorem attempt_null (hw : s.heap.blocks p = some (.wrap w)) (hbuffer : w.buffer = 0)
    (hnull : s.heap.blocks 0 = none) : s.attempt c p = .error (.access 0) := by
  simp [State.attempt, wrapAt_eq hw, hbuffer, hnull, bind, Except.bind]

/-- `malloc` has failed for the buffer of `w`. -/
theorem attempt_starved {size : BitVec 64} {ok : Bool} (hnull : s.heap.blocks 0 = none)
    (hp : p ≠ 0) (hfail : s.malloc size ok = (0, s)) :
    ((s.malloc size ok).2.setWrap p
        { w with bufferSize := size, buffer := (s.malloc size ok).1 }).attempt c p =
      .error (.access 0) := by
  rw [hfail]
  have hw : (s.setWrap p { w with bufferSize := size, buffer := 0 }).heap.blocks p =
      some (.wrap { w with bufferSize := size, buffer := 0 }) := Heap.write_self
  exact attempt_null hw rfl ((Heap.write_of_ne hp.symm).trans hnull)

/-- `malloc` has made the buffer of `w`. -/
theorem attempt_fed {size : BitVec 64} (hp : p ≠ s.heap.next) (hsize : size.toNat < 2 ^ 63) :
    ((s.malloc size true).2.setWrap p
        { w with bufferSize := size, buffer := (s.malloc size true).1 }).attempt c p =
      .ok ((s.fed p w size).attempted c p size) := by
  have hmalloc : s.malloc size true =
      (s.heap.next, { s with heap := s.heap.alloc (.bytes size.toNat 0) }) := if_pos ⟨rfl, hsize⟩
  rw [hmalloc]
  have hw : (s.fed p w size).heap.blocks p =
      some (.wrap { w with buffer := s.heap.next, bufferSize := size }) := Heap.write_self
  exact attempt_ok hw ((Heap.write_of_ne hp.symm).trans Heap.alloc_self)

theorem readyBuffer_null (hnull : s.heap.blocks 0 = none) (ok : Bool) :
    s.readyBuffer 0 ok = .error (.access 0) := by
  simp [State.readyBuffer, State.wrapAt, hnull, bind, Except.bind]

theorem hostbufWrap_new {n : Nat} (hnone : s.spec (.coroutine n) s.key = 0) (given : Given) :
    s.hostbufWrap (.coroutine n) given =
      if given.calloc = true then .ok (s.heap.next, s.wrapped (.coroutine n))
      else .ok (0, s.setSpec (.coroutine n) s.key 0) := by
  cases hcalloc : given.calloc <;>
    simp [State.hostbufWrap, State.coroutineGetspecific, State.callocWrap,
      State.coroutineSetspecific, hcalloc, hnone, pure, Except.pure, State.wrapped]

theorem hostbufWrap_old (hsome : s.spec c s.key ≠ 0) (given : Given) :
    s.hostbufWrap c given = .ok (s.spec c s.key, s) :=
  if_neg hsome

theorem readyBuffer_none (hw : s.heap.blocks p = some (.wrap w)) (hbuffer : w.buffer = 0)
    (ok : Bool) :
    s.readyBuffer p ok = .ok ((s.malloc 1024 ok).2.setWrap p
      { w with bufferSize := 1024, buffer := (s.malloc 1024 ok).1 }) := by
  simp [State.readyBuffer, wrapAt_eq hw, hbuffer, bind, Except.bind, pure, Except.pure]

theorem readyBuffer_small (hw : s.heap.blocks p = some (.wrap w)) (hbuffer : w.buffer ≠ 0)
    (hsize : w.bufferSize ≤ 1024) (ok : Bool) : s.readyBuffer p ok = .ok s := by
  have hnot : ¬ (w.buffer ≠ 0 ∧ w.bufferSize > 1024) :=
    fun hand => absurd hsize (BitVec.not_le.mpr hand.2)
  simp only [State.readyBuffer, wrapAt_eq hw, bind, Except.bind, pure, Except.pure, if_neg hnot,
    if_neg hbuffer]

theorem readyBuffer_large (hw : s.heap.blocks p = some (.wrap w)) (hbuffer : w.buffer ≠ 0)
    (hlive : (s.heap.blocks w.buffer).isSome = true) (hsize : ¬ w.bufferSize ≤ 1024) (ok : Bool) :
    s.readyBuffer p ok = .ok
      ((({ s with heap := s.heap.free w.buffer } : State).malloc 1024 ok).2.setWrap p
        { w with
          bufferSize := 1024
          buffer := (({ s with heap := s.heap.free w.buffer } : State).malloc 1024 ok).1 }) := by
  have hlarge : w.buffer ≠ 0 ∧ w.bufferSize > 1024 := ⟨hbuffer, BitVec.not_le.mp hsize⟩
  simp only [State.readyBuffer, wrapAt_eq hw, bind, Except.bind, pure, Except.pure, if_pos hlarge,
    State.free, if_neg hbuffer, if_pos hlive, if_true]

theorem fill_eq (hw : Furnished s.heap p w) (a : HostAnswer) :
    s.fill p a = .ok (State.answered w a, s.filled p w a) := by
  obtain ⟨content, hbytes⟩ := hw.bytes
  simp [State.fill, wrapAt_eq hw.blocks, hbytes, bind, Except.bind, pure, Except.pure,
    State.answered, State.filled, State.setWrap]

theorem filled_buffer (hw : Furnished s.heap p w) (a : HostAnswer) :
    (s.filled p w a).heap.blocks w.buffer = some (.bytes w.bufferSize.toNat a.entry) :=
  (Heap.write_of_ne hw.buffer_ne).trans Heap.write_self

/-- The lookup tries again, with a buffer twice as large. -/
theorem resume_retry (hw : Furnished s.heap p w) {a : HostAnswer} {v : State}
    (hretry : a.ret = erange ∧ a.hErrno = netdbInternal)
    (hv : v = { s.filled p w a with heap := (s.filled p w a).heap.free w.buffer }) (ok : Bool) :
    s.resume c p a ok =
      ((v.malloc (w.bufferSize * 2) ok).2.setWrap p
        { State.answered w a with
          bufferSize := w.bufferSize * 2
          buffer := (v.malloc (w.bufferSize * 2) ok).1 }).attempt c p := by
  have hlive := Option.isSome_of_eq_some (filled_buffer hw a)
  have hfree : (s.filled p w a).free w.buffer = .ok v := by
    rw [State.free, if_neg hw.buffer, if_pos hlive, hv]
  unfold State.resume
  rw [fill_eq hw]
  change (if a.ret = erange ∧ a.hErrno = netdbInternal then
    ((s.filled p w a).free w.buffer).bind _ else _) = _
  rw [if_pos hretry, hfree]
  rfl

/-- The lookup returns. -/
theorem resume_done (hw : Furnished s.heap p w) {a : HostAnswer}
    (hretry : ¬ (a.ret = erange ∧ a.hErrno = netdbInternal)) (ok : Bool) :
    s.resume c p a ok = .ok ((s.filled p w a).finished c
      (if a.ret = 0 ∧ a.found = true then some (p, a.entry) else none)) := by
  unfold State.resume
  rw [fill_eq hw]
  change (if a.ret = erange ∧ a.hErrno = netdbInternal then _ else _) = _
  rw [if_neg hretry]
  rfl

end Evaluation

namespace Inv

variable {s : State} {c : Caller} {k : Key}

theorem null (h : Inv s) : s.heap.blocks 0 = none := by
  obtain ⟨slot, hslot⟩ := h.held
  exact hslot.owns.null

theorem furnished (h : Inv s) (hk : k ∈ s.hostKeys) (hp : s.spec c k ≠ 0) :
    ∃ w, Furnished s.heap (s.spec c k) w := by
  obtain ⟨slot, hslot⟩ := h.held
  rw [← hslot.wrap c k hk] at hp ⊢
  obtain ⟨w, hw, -⟩ := hslot.some c k hp
  exact ⟨w, hw⟩

theorem ne_next (h : Inv s) {p : Ptr} (hp : (s.heap.blocks p).isSome = true) :
    p ≠ s.heap.next := by
  obtain ⟨slot, hslot⟩ := h.held
  rintro rfl
  rw [hslot.owns.fresh _ (Nat.le_refl _)] at hp
  cases hp

theorem next_ne (h : Inv s) : s.heap.next ≠ 0 := by
  obtain ⟨slot, hslot⟩ := h.held
  exact hslot.owns.next_ne

/-- A lookup that has its `hostbuf_wrap`. -/
theorem lookup_bind {u : State} {p : Ptr} {name : Nat} {given : Given}
    (hwrap : (s.emit [.entered c]).hostbufWrap c given = .ok (p, u)) :
    s.coroutineGethostbyname c (some name) given =
      (u.readyBuffer p given.malloc).bind fun v => v.attempt c p := by
  have hcall : s.coroutineGethostbyname c (some name) given =
      ((s.emit [.entered c]).hostbufWrap c given).bind fun r =>
        (r.2.readyBuffer r.1 given.malloc).bind fun v => v.attempt c r.1 := rfl
  rw [hcall, hwrap]
  rfl

theorem lookup_eq {u : State} {p : Ptr} {v : State} {name : Nat} {given : Given}
    (hwrap : (s.emit [.entered c]).hostbufWrap c given = .ok (p, u))
    (hready : u.readyBuffer p given.malloc = .ok v) :
    s.coroutineGethostbyname c (some name) given = v.attempt c p := by
  rw [lookup_bind hwrap, hready]
  rfl

theorem lookup_error {u : State} {p : Ptr} {f : Fault} {name : Nat} {given : Given}
    (hwrap : (s.emit [.entered c]).hostbufWrap c given = .ok (p, u))
    (hready : u.readyBuffer p given.malloc = .error f) :
    s.coroutineGethostbyname c (some name) given = .error f := by
  rw [lookup_bind hwrap, hready]
  rfl

/-- A first lookup. -/
theorem perform_first (h : Inv s) {n : Nat} (hcall : s.calls (.coroutine n) = none)
    (hkey : s.key ∈ s.hostKeys) (hmay : s.mayHook (.coroutine n) = true)
    (hnone : s.spec (.coroutine n) s.key = 0) (name : Nat) (given : Given) :
    Effect s (.gethostbyname (.coroutine n) true (some name) given)
      (s.coroutineGethostbyname (.coroutine n) (some name) given) := by
  let u := s.emit [.entered (.coroutine n)]
  have hnone' : u.spec (.coroutine n) u.key = 0 := hnone
  have hwrap : u.hostbufWrap (.coroutine n) given =
      if given.calloc = true then .ok (s.heap.next, u.wrapped (.coroutine n))
      else .ok (0, u.setSpec (.coroutine n) s.key 0) := hostbufWrap_new hnone' given
  have hstarves : given.calloc = false ∨ given.malloc = false →
      s.Starves (.gethostbyname (.coroutine n) true (some name) given) :=
    fun hfail => ⟨⟨hcall, hmay⟩, rfl, Option.some_ne_none name, Or.inl ⟨hnone, hfail⟩⟩
  cases hcalloc : given.calloc with
  | false =>
      have hnull : (u.setSpec (.coroutine n) s.key 0).heap.blocks 0 = none := h.null
      rw [hcalloc] at hwrap
      rw [lookup_error hwrap (readyBuffer_null hnull given.malloc)]
      exact .starved (hstarves (Or.inl hcalloc))
  | true =>
      let v := u.wrapped (.coroutine n)
      have hw : v.heap.blocks s.heap.next = some (.wrap ⟨0, 0, 0, 0⟩) := Heap.alloc_self
      have hnull : v.heap.blocks 0 = none := (Heap.alloc_of_ne h.next_ne.symm).trans h.null
      have hready := readyBuffer_none hw rfl given.malloc
      rw [hcalloc] at hwrap
      rw [lookup_eq hwrap hready]
      cases hmalloc : given.malloc with
      | false =>
          have hfail : v.malloc 1024 false = (0, v) := rfl
          rw [attempt_starved hnull h.next_ne hfail]
          exact .starved (hstarves (Or.inr hmalloc))
      | true =>
          have hnew : s.heap.next ≠ v.heap.next := Nat.ne_of_lt (Nat.lt_succ_self s.heap.next)
          rw [attempt_fed hnew (by decide)]
          exact .first hcall hkey hnone ⟨hcalloc, hmalloc⟩

/-- A later lookup. -/
theorem perform_later (h : Inv s) (hcall : s.calls c = none) (hkey : s.key ∈ s.hostKeys)
    (hmay : s.mayHook c = true) (hsome : s.spec c s.key ≠ 0) (name : Nat) (given : Given) :
    Effect s (.gethostbyname c true (some name) given)
      (s.coroutineGethostbyname c (some name) given) := by
  let u := s.emit [.entered c]
  have hsome' : u.spec c u.key ≠ 0 := hsome
  have hwrap : u.hostbufWrap c given = .ok (s.spec c s.key, u) := hostbufWrap_old hsome' given
  obtain ⟨w, hw⟩ := h.furnished hkey hsome
  obtain ⟨content, hbytes⟩ := hw.bytes
  have hblocks : u.heap.blocks (s.spec c s.key) = some (.wrap w) := hw.blocks
  by_cases hsize : w.bufferSize ≤ 1024
  · rw [lookup_eq hwrap (readyBuffer_small hblocks hw.buffer hsize given.malloc),
      attempt_ok hblocks hbytes]
    exact .again hcall hkey hsome hw hsize
  · have hlive : (u.heap.blocks w.buffer).isSome = true := Option.isSome_of_eq_some hbytes
    rw [lookup_eq hwrap (readyBuffer_large hblocks hw.buffer hlive hsize given.malloc)]
    let v : State := { u with heap := u.heap.free w.buffer }
    have hnull : v.heap.blocks 0 = none := (Heap.free_of_ne hw.buffer.symm).trans h.null
    cases hmalloc : given.malloc with
    | false =>
        have hfail : v.malloc 1024 false = (0, v) := rfl
        rw [attempt_starved hnull hsome hfail]
        refine .starved ⟨⟨hcall, hmay⟩, rfl, Option.some_ne_none name, Or.inr ?_⟩
        exact ⟨w, hw.blocks, BitVec.not_le.mp hsize, hmalloc⟩
    | true =>
        have hold : s.spec c s.key ≠ v.heap.next := h.ne_next (Option.isSome_of_eq_some hw.blocks)
        rw [attempt_fed hold (by decide)]
        exact .renew hcall hkey hsome hw hmalloc

theorem perform_gethostbyname (h : Inv s) {hooks : Bool} (hcall : s.calls c = none)
    (hmay : hooks = true → s.mayHook c = true) (name : Option Nat) (given : Given) :
    Effect s (.gethostbyname c hooks name given) (s.gethostbyname c hooks name given) := by
  cases hooks with
  | false => exact .native
  | true =>
      have hmay := hmay rfl
      cases name with
      | none =>
          have hnameless : s.gethostbyname c true none given =
              .ok (s.emit [.entered c, .returned c none]) := by
            simp [State.gethostbyname, State.coroutineGethostbyname, State.emit, pure,
              Except.pure]
          rw [hnameless]
          exact .nameless hcall
      | some name =>
          change Effect s _ (s.coroutineGethostbyname c (some name) given)
          cases c with
          | thread t => cases hmay
          | coroutine n =>
              have hkey : s.key ∈ s.hostKeys := h.key (of_decide_eq_true hmay)
              by_cases hnone : s.spec (.coroutine n) s.key = 0
              · exact h.perform_first hcall hkey hmay hnone name given
              · exact h.perform_later hcall hkey hmay hnone name given

/-- `gethostbyname_r` has returned. -/
theorem perform_answer (h : Inv s) {p : Ptr} (hcall : s.calls c = some p) (a : HostAnswer)
    (ok : Bool) : Effect s (.answer c a ok) (s.resume c p a ok) := by
  obtain ⟨hsome, k, hkey, rfl⟩ := h.calls c p hcall
  obtain ⟨w, hw⟩ := h.furnished hkey hsome
  by_cases hretry : a.ret = erange ∧ a.hErrno = netdbInternal
  · let u := s.filled (s.spec c k) w a
    let v : State := { u with heap := u.heap.free w.buffer }
    have hnull : v.heap.blocks 0 = none := by
      refine (Heap.free_of_ne hw.buffer.symm).trans ?_
      exact (Heap.write_of_ne hsome.symm).trans ((Heap.write_of_ne hw.buffer.symm).trans h.null)
    have hv : v = { u with heap := u.heap.free w.buffer } := rfl
    rw [resume_retry hw hretry hv]
    by_cases hroom : ok = true ∧ w.bufferSize.toNat < 2 ^ 62
    · have hsmall : (w.bufferSize * 2).toNat < 2 ^ 63 := by
        rw [toNat_twice hw.small]
        omega
      have hold : s.spec c k ≠ v.heap.next := h.ne_next (Option.isSome_of_eq_some hw.blocks)
      rw [hroom.1, attempt_fed hold hsmall]
      exact .grow hcall hkey rfl hsome hw hroom.2 hretry rfl
    · have hfail : v.malloc (w.bufferSize * 2) ok = (0, v) := by
        refine if_neg fun hand => hroom ⟨hand.1, ?_⟩
        have hsmall := hand.2
        rw [toNat_twice hw.small] at hsmall
        omega
      rw [attempt_starved hnull hsome hfail]
      refine .starved ⟨_, w, hcall, hw.blocks, hretry.1, hretry.2, ?_⟩
      rw [not_and_or, Bool.not_eq_true, Nat.not_lt] at hroom
      exact hroom
  · rw [resume_done hw hretry]
    exact .done hcall hkey rfl hsome hw hretry

/-- Every step is one of those. -/
theorem effect (h : Inv s) {a : Act} {r : Except Fault State} (hp : s.perform a = some r) :
    Effect s a r := by
  cases a with
  | initEnv key =>
      obtain ⟨hnew, hr⟩ := Option.ite_none_right_eq_some.mp hp
      obtain rfl := Option.some.inj hr
      exact .initEnv hnew
  | createKey key =>
      obtain ⟨hnew, hr⟩ := Option.ite_none_right_eq_some.mp hp
      obtain rfl := Option.some.inj hr
      exact .createKey hnew
  | setspecific c key value ok =>
      obtain ⟨⟨-, hkey⟩, hr⟩ := Option.ite_none_right_eq_some.mp hp
      obtain rfl := Option.some.inj hr
      cases c with
      | thread t =>
          cases ok with
          | true => exact .set hkey
          | false => exact .unset
      | coroutine n => exact .set hkey
  | gethostbyname c hooks name given =>
      obtain ⟨⟨hcall, hmay⟩, hr⟩ := Option.ite_none_right_eq_some.mp hp
      obtain rfl := Option.some.inj hr
      exact h.perform_gethostbyname hcall hmay name given
  | answer c a ok =>
      obtain ⟨p, hcall, rfl⟩ := Option.map_eq_some_iff.mp hp
      exact h.perform_answer hcall a ok

end Inv

end HostLookup

end Libcr
