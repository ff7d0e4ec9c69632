import Libcr.Hook.HostBuffers

/-!
# The results of host lookups

`gethostbyname` returns a pointer into memory that it will write again. What a lookup returned
can be read until the same coroutine begins another one: lookups of other coroutines write only
their own `hostbuf_wrap` and buffer. The log of a run says what was returned last, and how often
a lookup has called `gethostbyname_r`; the invariant `Told` ties both to the memory, and the
second to the size of the buffer.
-/

namespace Libcr

namespace HostLookup

/-- What the last lookup of a caller returned, after one more entry: nothing once it has begun
another one. -/
def resultStep (c : Caller) (result : Option (Ptr × Nat)) : Obs → Option (Ptr × Nat)
  | .entered c' => if c' = c then none else result
  | .attempt _ _ => result
  | .returned c' host => if c' = c then host else result

/-- What the last lookup of a caller returned. -/
def resultOf (c : Caller) (log : List Obs) : Option (Ptr × Nat) := log.foldl (resultStep c) none

/-- How often a caller has called `gethostbyname_r` in its lookup, after one more entry. -/
def attemptStep (c : Caller) (n : Nat) : Obs → Nat
  | .entered c' => if c' = c then 0 else n
  | .attempt c' _ => if c' = c then n + 1 else n
  | .returned _ _ => n

/-- How often a caller has called `gethostbyname_r` in its last lookup. -/
def attemptsOf (c : Caller) (log : List Obs) : Nat := log.foldl (attemptStep c) 0

/-- The caller an entry is about. -/
def Obs.caller : Obs → Caller
  | .entered c => c
  | .attempt c _ => c
  | .returned c _ => c

section Logs

variable {c c' : Caller} {l os : List Obs}

theorem foldl_skip {α β : Type*} {f : α → β → α} {x : α} {bs : List β}
    (h : ∀ b ∈ bs, f x b = x) : bs.foldl f x = x := by
  induction bs with
  | nil => rfl
  | cons b rest ih =>
      rw [List.forall_mem_cons] at h
      rw [List.foldl_cons, h.1]
      exact ih h.2

/-- What another caller does is no part of a result. -/
theorem resultOf_other (hc : c' ≠ c) (hos : ∀ o ∈ os, o.caller = c) :
    resultOf c' (l ++ os) = resultOf c' l := by
  rw [resultOf, List.foldl_append]
  apply foldl_skip
  intro o ho
  have hne : o.caller ≠ c' := fun heq => hc (heq.symm.trans (hos o ho))
  cases o with
  | entered => exact if_neg hne
  | attempt => rfl
  | returned => exact if_neg hne

theorem attemptsOf_other (hc : c' ≠ c) (hos : ∀ o ∈ os, o.caller = c) :
    attemptsOf c' (l ++ os) = attemptsOf c' l := by
  rw [attemptsOf, List.foldl_append]
  apply foldl_skip
  intro o ho
  have hne : o.caller ≠ c' := fun heq => hc (heq.symm.trans (hos o ho))
  cases o with
  | entered => exact if_neg hne
  | attempt => exact if_neg hne
  | returned => rfl

end Logs

/-- The `hostbuf_wrap` at `p` holds the entry `v`, and so does its buffer. -/
def Holding (h : Heap Block) (p : Ptr) (v : Nat) : Prop :=
  ∃ w, Furnished h p w ∧ w.host = v ∧ h.blocks w.buffer = some (.bytes w.bufferSize.toNat v)

/-- What the log says about the memory of a caller that is not in a lookup. -/
def Keeping (s : State) (c : Caller) : Prop :=
  ∀ p v, resultOf c s.log = some (p, v) → s.calls c = none ∧
    (∃ k ∈ s.hostKeys, s.spec c k = p) ∧ p ≠ 0 ∧ Holding s.heap p v

/-- What the log says about the memory of a caller that is in a lookup. -/
def Trying (s : State) (c : Caller) : Prop :=
  ∀ p, s.calls c = some p → ∃ w n, s.heap.blocks p = some (.wrap w) ∧
    attemptsOf c s.log = n + 1 ∧ w.bufferSize.toNat = 1024 * 2 ^ n

/-- What the log says about the memory, and about itself. -/
structure Told (s : State) : Prop where
  keeping : ∀ c, Keeping s c
  trying : ∀ c, Trying s c
  sizes : ∀ l₁ c size l₂, s.log = l₁ ++ .attempt c size :: l₂ →
    size = 1024 * 2 ^ attemptsOf c l₁ ∧ attemptsOf c l₁ ≤ 52

theorem told_start : Told State.start where
  keeping := fun _ _ _ h => by cases h
  trying := fun _ _ h => by cases h
  sizes := by simp [State.start]

section Telling

variable {s t : State} {c : Caller} {os : List Obs}

/-- What a step has done to the blocks: nothing, or a change of those of one caller. -/
inductive Moved (s t : State) (c : Caller) : Prop
  | still (hheap : t.heap = s.heap) (hspec : ∀ c' k, k ∈ s.hostKeys → t.spec c' k = s.spec c' k)
  | change {k : Key} {slot slot' : Slot → Ptr} (hk : k ∈ s.hostKeys) (held : Held s slot)
      (hchange : Change s t c k slot slot')

/-- The blocks of other callers stay as they are. -/
theorem Moved.others {c' : Caller} {k : Key} {w : HostBuf} (h : Moved s t c) (hc : c' ≠ c)
    (hk : k ∈ s.hostKeys) (hp : s.spec c' k ≠ 0) (hw : Furnished s.heap (s.spec c' k) w) :
    t.spec c' k = s.spec c' k ∧ t.heap.blocks (s.spec c' k) = s.heap.blocks (s.spec c' k) ∧
      t.heap.blocks w.buffer = s.heap.blocks w.buffer := by
  cases h with
  | still hheap hspec => exact ⟨hspec c' k hk, by rw [hheap], by rw [hheap]⟩
  | @change k₀ slot slot' hk₀ held hchange =>
      have hother : ¬ (c' = c ∧ k = k₀) := fun hand => hc hand.1
      have hwrap := held.wrap c' k hk
      have hbuffer := held.buffer_eq hk hp hw
      refine ⟨hchange.spec c' k hother, ?_, ?_⟩
      · rw [← hwrap] at hp ⊢
        exact hchange.kept (c', k, .wrap) hother hp
      · have hne : slot (c', k, .buffer) ≠ 0 := hbuffer ▸ hw.buffer
        rw [hbuffer]
        exact hchange.kept (c', k, .buffer) hother hne

/-- Nothing that the log speaks of has changed. -/
theorem Told.still (h : Told s) (hlog : t.log = s.log) (hheap : t.heap = s.heap)
    (hcalls : t.calls = s.calls) (hkeys : ∀ k ∈ s.hostKeys, k ∈ t.hostKeys)
    (hspec : ∀ c k, k ∈ s.hostKeys → t.spec c k = s.spec c k) : Told t where
  keeping := by
    intro c p v hresult
    rw [hlog] at hresult
    obtain ⟨hcall, ⟨k, hk, hp⟩, hrest⟩ := h.keeping c p v hresult
    rw [hcalls, hheap]
    exact ⟨hcall, ⟨k, hkeys k hk, (hspec c k hk).trans hp⟩, hrest⟩
  trying := by
    unfold Trying
    rw [hlog, hheap, hcalls]
    exact h.trying
  sizes := by
    rw [hlog]
    exact h.sizes

/-- One caller moves, and only it is spoken of. -/
theorem Told.moved (h : Told s) (hinv : Inv s) (hmoved : Moved s t c)
    (hkeys : t.hostKeys = s.hostKeys) (hlog : t.log = s.log ++ os)
    (hos : ∀ o ∈ os, o.caller = c) (hcalls : ∀ c', c' ≠ c → t.calls c' = s.calls c')
    (hkeeping : Keeping t c) (htrying : Trying t c)
    (hsizes : ∀ os₁ size os₂, os = os₁ ++ .attempt c size :: os₂ →
      size = 1024 * 2 ^ attemptsOf c (s.log ++ os₁) ∧ attemptsOf c (s.log ++ os₁) ≤ 52) :
    Told t where
  keeping := by
    intro c' p v hresult
    by_cases hc : c' = c
    · subst hc
      exact hkeeping p v hresult
    · rw [hlog, resultOf_other hc hos] at hresult
      obtain ⟨hcall, ⟨k, hk, rfl⟩, hp, w, hw, hhost, hbytes⟩ := h.keeping c' p v hresult
      obtain ⟨hspec, hwrap, hbuffer⟩ := hmoved.others hc hk hp hw
      rw [hcalls c' hc, hkeys]
      exact ⟨hcall, ⟨k, hk, hspec⟩, hp, w, hw.congr hwrap hbuffer, hhost, hbuffer.trans hbytes⟩
  trying := by
    intro c' p hcall
    by_cases hc : c' = c
    · subst hc
      exact htrying p hcall
    · rw [hcalls c' hc] at hcall
      obtain ⟨w, n, hblocks, hattempts, hsize⟩ := h.trying c' p hcall
      obtain ⟨hp, k, hk, rfl⟩ := hinv.calls c' p hcall
      obtain ⟨w', hw'⟩ := hinv.furnished hk hp
      refine ⟨w, n, ?_, ?_, hsize⟩
      · rw [(hmoved.others hc hk hp hw').2.1]
        exact hblocks
      · rw [hlog, attemptsOf_other hc hos]
        exact hattempts
  sizes := by
    intro l₁ c' size l₂ hsplit
    rw [hlog] at hsplit
    rcases split_append hsplit with ⟨mid, hold, -⟩ | ⟨os₁, rfl, hnew⟩
    · exact h.sizes l₁ c' size mid hold
    · have hc : c' = c := hos (.attempt c' size) (by simp [hnew])
      subst hc
      exact hsizes os₁ size l₂ hnew

/-- The entries of a lookup up to its first call of `gethostbyname_r`. -/
theorem resultOf_begun (l : List Obs) (c : Caller) (size : Nat) :
    resultOf c (l ++ [.entered c, .attempt c size]) = none := by
  simp [resultOf, resultStep]

theorem attemptsOf_begun (l : List Obs) (c : Caller) (size : Nat) :
    attemptsOf c (l ++ [.entered c, .attempt c size]) = 1 := by
  simp [attemptsOf, attemptStep]

/-- A lookup begins with a buffer of 1024 bytes. -/
theorem Told.begun (h : Told s) (hinv : Inv s) (hmoved : Moved s t c)
    (hkeys : t.hostKeys = s.hostKeys) (hlog : t.log = s.log ++ [.entered c, .attempt c 1024])
    {p : Ptr} (hcalls : t.calls = Function.update s.calls c (some p)) {w : HostBuf}
    (hw : t.heap.blocks p = some (.wrap w)) (hsize : w.bufferSize.toNat = 1024) : Told t := by
  apply h.moved hinv hmoved hkeys hlog (by simp [Obs.caller])
  · intro c' hc
    rw [hcalls, Function.update_of_ne hc]
  · intro p' v hresult
    rw [hlog, resultOf_begun] at hresult
    cases hresult
  · intro p' hcall
    rw [hcalls, Function.update_self, Option.some.injEq] at hcall
    subst hcall
    refine ⟨w, 0, hw, ?_, hsize⟩
    rw [hlog, attemptsOf_begun]
  · intro os₁ size os₂ hos
    obtain ⟨rfl, rfl⟩ : os₁ = [.entered c] ∧ size = 1024 := by
      cases os₁ with
      | nil => cases hos
      | cons o rest =>
          cases rest with
          | nil =>
              rw [List.singleton_append, List.cons.injEq, List.cons.injEq] at hos
              exact ⟨congrArg (fun o => [o]) hos.1.symm, (Obs.attempt.inj hos.2.1).2.symm⟩
          | cons o' rest => simp at hos
    have hzero : attemptsOf c (s.log ++ [.entered c]) = 0 := by simp [attemptsOf, attemptStep]
    rw [hzero]
    exact ⟨rfl, Nat.zero_le _⟩

theorem le_of_power_lt {n : Nat} (h : 1024 * 2 ^ n < 2 ^ 63) : n ≤ 52 := by
  have hpower : (1024 : Nat) * 2 ^ n = 2 ^ (10 + n) := by rw [Nat.pow_add]
  rw [hpower, Nat.pow_lt_pow_iff_right (by decide)] at h
  omega

/-- A lookup goes on with a buffer twice as large. -/
theorem Told.retried (h : Told s) (hinv : Inv s) (hmoved : Moved s t c)
    (hkeys : t.hostKeys = s.hostKeys) {p : Ptr} (hcall : s.calls c = some p) {w w' : HostBuf}
    (hw : s.heap.blocks p = some (.wrap w)) (hw' : t.heap.blocks p = some (.wrap w'))
    (hsize : w'.bufferSize.toNat = w.bufferSize.toNat * 2) (hsmall : w'.bufferSize.toNat < 2 ^ 63)
    (hlog : t.log = s.log ++ [.attempt c w'.bufferSize.toNat])
    (hcalls : t.calls = Function.update s.calls c (some p)) : Told t := by
  obtain ⟨w₀, n, hblocks, hattempts, hbytes⟩ := h.trying c p hcall
  obtain rfl := Block.wrap.inj (Option.some.inj (hw.symm.trans hblocks))
  have hpower : w'.bufferSize.toNat = 1024 * 2 ^ (n + 1) := by
    rw [hsize, hbytes, Nat.pow_succ, Nat.mul_assoc]
  apply h.moved hinv hmoved hkeys hlog (by simp [Obs.caller])
  · intro c' hc
    rw [hcalls, Function.update_of_ne hc]
  · -- A caller that is in a lookup has no result.
    intro p' v hresult
    rw [hlog, resultOf, List.foldl_append] at hresult
    have hcall' := (h.keeping c p' v hresult).1
    rw [hcall] at hcall'
    cases hcall'
  · intro p' hcall'
    rw [hcalls, Function.update_self, Option.some.injEq] at hcall'
    subst hcall'
    refine ⟨w', n + 1, hw', ?_, hpower⟩
    rw [hlog, attemptsOf, List.foldl_append, ← attemptsOf, hattempts]
    exact if_pos rfl
  · intro os₁ size os₂ hos
    rcases List.singleton_eq_append_iff.mp hos with ⟨rfl, hhead⟩ | ⟨-, hnil⟩
    · obtain ⟨-, hsize'⟩ := Obs.attempt.inj (List.cons.inj hhead).1
      rw [List.append_nil, hattempts, hsize']
      exact ⟨hpower, le_of_power_lt (hpower ▸ hsmall)⟩
    · cases hnil

/-- A lookup returns. -/
theorem Told.returned (h : Told s) (hinv : Inv s) (hmoved : Moved s t c)
    (hkeys : t.hostKeys = s.hostKeys) {host : Option (Ptr × Nat)}
    (hlog : t.log = s.log ++ [.returned c host])
    (hcalls : t.calls = Function.update s.calls c none)
    (hhost : ∀ p v, host = some (p, v) →
      (∃ k ∈ t.hostKeys, t.spec c k = p) ∧ p ≠ 0 ∧ Holding t.heap p v) : Told t := by
  have hnone : t.calls c = none := by
    rw [hcalls]
    exact Function.update_self ..
  apply h.moved hinv hmoved hkeys hlog (by simp [Obs.caller])
  · intro c' hc
    rw [hcalls, Function.update_of_ne hc]
  · intro p v hresult
    have hlast : resultOf c (s.log ++ [.returned c host]) = host := by
      simp [resultOf, resultStep]
    rw [hlog, hlast] at hresult
    exact ⟨hnone, hhost p v hresult⟩
  · intro p hcall
    rw [hnone] at hcall
    cases hcall
  · intro os₁ size os₂ hos
    have hmem : Obs.attempt c size ∈ os₁ ++ .attempt c size :: os₂ := List.mem_append_cons_self
    rw [← hos] at hmem
    cases List.mem_singleton.mp hmem

theorem Told.step (h : Told s) (hinv : Inv s) {a : Act} (he : Effect s a (.ok t)) : Told t := by
  obtain ⟨slot, held⟩ := hinv.held
  cases he with
  | @initEnv key hnew =>
      exact h.still rfl rfl rfl (fun k hk => List.mem_cons_of_mem _ hk) fun _ _ _ => rfl
  | createKey hnew => exact h.still rfl rfl rfl (fun _ hk => hk) fun _ _ _ => rfl
  | @set c key value ok hkey =>
      refine h.still rfl rfl rfl (fun _ hk => hk) fun c' k hk => ?_
      have hne : k ≠ key := by
        rintro rfl
        exact hinv.apart k hkey hk
      exact setSpec_of_ne hne c c' value
  | unset => exact h
  | native => exact h
  | @nameless c given hcall =>
      refine h.moved hinv (c := c) (.still rfl fun _ _ _ => rfl) rfl rfl (by simp [Obs.caller])
        (fun _ _ => rfl) ?_ ?_ ?_
      · intro p v hresult
        change resultOf c (s.log ++ [.entered c, .returned c none]) = _ at hresult
        simp [resultOf, resultStep] at hresult
      · intro p hp
        rw [show (s.emit _).calls c = s.calls c from rfl, hcall] at hp
        cases hp
      · intro os₁ size os₂ hos
        have hmem : Obs.attempt c size ∈ [Obs.entered c, .returned c none] := by simp [hos]
        simp at hmem
  | @first c name given hcall hkey hnone hgiven =>
      have hchange := held.first hkey hnone
      exact h.begun hinv (.change hkey held (hchange.of_eq rfl rfl rfl)) rfl
        (List.append_assoc ..) rfl Heap.write_self rfl
  | @again c name given w hcall hkey hsome hw hsize =>
      have hfirst : w.bufferSize.toNat = 1024 := by
        obtain ⟨i, hi⟩ := hw.size
        have hpos : 0 < 2 ^ i := Nat.two_pow_pos i
        have hle : w.bufferSize.toNat ≤ 1024 := hsize
        omega
      refine h.begun hinv (.still rfl fun _ _ _ => rfl) rfl ?_ rfl hw.blocks hfirst
      rw [← hfirst]
      exact List.append_assoc ..
  | @renew c name given w hcall hkey hsome hw hgiven =>
      have hchange : Change s (s.rebuffered (s.spec c s.key) w 1024) c s.key slot _ :=
        held.rebuffered hkey hsome hw ⟨0, rfl⟩ (by decide)
      exact h.begun hinv (.change hkey held (hchange.of_eq rfl rfl rfl)) rfl
        (List.append_assoc ..) rfl Heap.write_self rfl
  | @grow c k p w a ok hcall hkey hp hsome hw hsize hretry hok =>
      subst hp
      have hchange := held.grown hkey hsome hw a hsize
      exact h.retried hinv (.change hkey held (hchange.of_eq rfl rfl rfl)) rfl hcall hw.blocks
        Heap.write_self (toNat_twice hw.small) (twice_size hsize hw.size).2 rfl rfl
  | @done c k p w a ok hcall hkey hp hsome hw hretry =>
      subst hp
      obtain ⟨hchange, hanswered⟩ := held.filled hkey hsome hw a
      refine h.returned hinv (.change hkey held (hchange.of_eq rfl rfl rfl)) rfl rfl rfl ?_
      intro p v hhost
      rw [Option.ite_none_right_eq_some, Option.some.injEq] at hhost
      obtain ⟨-, hpv⟩ := hhost
      cases hpv
      exact ⟨⟨k, hkey, rfl⟩, hsome, State.answered w a, hanswered, rfl, filled_buffer hw a⟩

theorem State.Reached.told (h : s.Reached) : Told s := by
  refine h.invariant told_start ?_
  intro u a v hu htold _ hstep
  have hinv : Inv u := State.Reached.inv hu
  rcases hinv.step_cases hstep with heffect | ⟨f, rfl⟩
  · exact htold.step hinv heffect
  · exact htold.still rfl rfl rfl (fun _ hk => hk) fun _ _ _ => rfl

/-- What a lookup returned stays as it is, with the buffer it points into, until the same
coroutine begins another lookup: the lookups of other coroutines write elsewhere. -/
theorem host_stays (h : s.Reached) {p : Ptr} {v : Nat}
    (hresult : resultOf c s.log = some (p, v)) :
    ∃ w, s.heap.blocks p = some (.wrap w) ∧ w.host = v ∧
      s.heap.blocks w.buffer = some (.bytes w.bufferSize.toNat v) := by
  obtain ⟨-, -, -, w, hw, hhost, hbytes⟩ := h.told.keeping c p v hresult
  exact ⟨w, hw.blocks, hhost, hbytes⟩

/-- The first of two coroutines keeps its result while the second looks up another name, with a
buffer that grows. -/
theorem host_stays_two : ∃ s : State, s.Reached ∧ resultOf (.coroutine 1) s.log = some (1, 7) ∧
    ∃ w, s.heap.blocks 1 = some (.wrap w) ∧ w.host = 7 ∧
      s.heap.blocks w.buffer = some (.bytes w.bufferSize.toNat 7) := by
  let acts : List Act := [.initEnv 3,
    .gethostbyname (.coroutine 1) true (some 0) ⟨true, true, true⟩,
    .gethostbyname (.coroutine 2) true (some 1) ⟨true, true, true⟩,
    .answer (.coroutine 1) ⟨0, 0, true, 7⟩ true,
    .answer (.coroutine 2) ⟨erange, netdbInternal, false, 9⟩ true,
    .answer (.coroutine 2) ⟨0, 0, true, 8⟩ true]
  obtain ⟨s, hs, hresult⟩ := Option.map_eq_some_iff.mp (show
    (exec State.step State.start acts).map (fun s => resultOf (.coroutine 1) s.log) =
      some (some (1, 7)) by decide +kernel)
  have hreached : s.Reached := exec_reaches (fun _ _ _ => trivial) hs
  exact ⟨s, hreached, hresult, host_stays hreached hresult⟩

/-- The calls of `gethostbyname_r` in a lookup are given 1024 bytes, 2048 bytes and so on, and
there are at most 53 of them. -/
theorem attempts_double (h : s.Reached) {l₁ l₂ : List Obs} {size : Nat}
    (hlog : s.log = l₁ ++ .attempt c size :: l₂) :
    size = 1024 * 2 ^ attemptsOf c l₁ ∧ attemptsOf c l₁ ≤ 52 :=
  h.told.sizes l₁ c size l₂ hlog

/-- A lookup that tries twice. -/
theorem attempts_double_twice : ∃ (s : State) (l₁ l₂ : List Obs), s.Reached ∧
    s.log = l₁ ++ .attempt (.coroutine 1) 2048 :: l₂ ∧
      2048 = 1024 * 2 ^ attemptsOf (.coroutine 1) l₁ := by
  let acts : List Act := [.initEnv 3,
    .gethostbyname (.coroutine 1) true (some 0) ⟨true, true, true⟩,
    .answer (.coroutine 1) ⟨erange, netdbInternal, false, 9⟩ true]
  obtain ⟨s, hs, hlog⟩ := Option.map_eq_some_iff.mp (show
    (exec State.step State.start acts).map State.log =
      some ([.entered (.coroutine 1), .attempt (.coroutine 1) 1024] ++
        [.attempt (.coroutine 1) 2048]) by decide +kernel)
  have hreached : s.Reached := exec_reaches (fun _ _ _ => trivial) hs
  exact ⟨s, _, _, hreached, hlog, (attempts_double hreached hlog).1⟩

end Telling

end HostLookup

end Libcr
