import Libcr.Hook.HostSteps

/-!
# The memory of host lookups

Every block that a lookup has allocated is the `hostbuf_wrap` of one coroutine under one key,
or the buffer of such a `hostbuf_wrap`, and a buffer has exactly the size that is noted with
it. So a lookup never follows a pointer to a block that was given back, whatever lookups of
other coroutines run in between; the one thing that can go wrong is an allocation that fails,
which the code does not check for.
-/

namespace Libcr

namespace HostLookup

/-- The blocks of one caller under one key have changed. -/
structure Change (s t : State) (c : Caller) (k : Key) (slot slot' : Slot → Ptr) : Prop where
  owns : t.heap.Owns slot'
  keys : t.hostKeys = s.hostKeys
  slots : ∀ i : Slot, ¬ (i.1 = c ∧ i.2.1 = k) → slot' i = slot i
  kept : ∀ i : Slot, ¬ (i.1 = c ∧ i.2.1 = k) → slot i ≠ 0 →
    t.heap.blocks (slot i) = s.heap.blocks (slot i)
  spec : ∀ c' k', ¬ (c' = c ∧ k' = k) → t.spec c' k' = s.spec c' k'
  wrap : slot' (c, k, .wrap) = t.spec c k
  full : ∃ w, Furnished t.heap (slot' (c, k, .wrap)) w ∧ w.buffer = slot' (c, k, .buffer)

section Changes

variable {s t : State} {c : Caller} {k : Key} {slot slot' : Slot → Ptr}

/-- What is furnished stays so while its blocks stay. -/
theorem Furnished.congr {h h' : Heap Block} {p : Ptr} {w : HostBuf} (hw : Furnished h p w)
    (hp : h'.blocks p = h.blocks p) (hq : h'.blocks w.buffer = h.blocks w.buffer) :
    Furnished h' p w where
  blocks := hp.trans hw.blocks
  buffer := hw.buffer
  bytes := hw.bytes.imp fun _ hbytes => hq.trans hbytes
  size := hw.size
  small := hw.small

theorem Furnished.eq {h : Heap Block} {p : Ptr} {w w' : HostBuf} (hw : Furnished h p w)
    (hw' : Furnished h p w') : w = w' :=
  Block.wrap.inj (Option.some.inj (hw.blocks.symm.trans hw'.blocks))

theorem Change.held (hchange : Change s t c k slot slot') (h : Held s slot)
    (hk : k ∈ s.hostKeys) : Held t slot' where
  owns := hchange.owns
  outside := by
    intro c' k' part hk'
    rw [hchange.keys] at hk'
    have hother : ¬ (c' = c ∧ k' = k) := fun hand => hk' (hand.2 ▸ hk)
    rw [hchange.slots (c', k', part) hother]
    exact h.outside c' k' part hk'
  wrap := by
    intro c' k' hk'
    rw [hchange.keys] at hk'
    by_cases hown : c' = c ∧ k' = k
    · rw [hown.1, hown.2]
      exact hchange.wrap
    · rw [hchange.slots _ hown, hchange.spec c' k' hown]
      exact h.wrap c' k' hk'
  none := by
    intro c' k' hzero
    by_cases hown : c' = c ∧ k' = k
    · obtain ⟨w, hw, -⟩ := hchange.full
      rw [hown.1, hown.2] at hzero
      rw [hzero] at hw
      exact absurd (hchange.owns.null.symm.trans hw.blocks) (Option.some_ne_none _).symm
    · rw [hchange.slots _ hown] at hzero
      rw [hchange.slots _ hown]
      exact h.none c' k' hzero
  some := by
    intro c' k' hne
    by_cases hown : c' = c ∧ k' = k
    · rw [hown.1, hown.2]
      exact hchange.full
    · rw [hchange.slots _ hown] at hne
      rw [hchange.slots _ hown, hchange.slots _ hown]
      obtain ⟨w, hw, hbuffer⟩ := h.some c' k' hne
      refine ⟨w, hw.congr (hchange.kept _ hown hne) ?_, hbuffer⟩
      have hbufferne : slot (c', k', .buffer) ≠ 0 := hbuffer ▸ hw.buffer
      rw [hbuffer]
      exact hchange.kept (c', k', .buffer) hown hbufferne

theorem Held.buffer_eq (h : Held s slot) (hk : k ∈ s.hostKeys) (hp : s.spec c k ≠ 0) {w : HostBuf}
    (hw : Furnished s.heap (s.spec c k) w) : w.buffer = slot (c, k, .buffer) := by
  rw [← h.wrap c k hk] at hp hw
  obtain ⟨w', hw', hbuffer⟩ := h.some c k hp
  rw [hw.eq hw']
  exact hbuffer

/-- Other slots hold other blocks. -/
theorem Held.ne_of_other (h : Held s slot) {i : Slot} {part : Part}
    (hi : ¬ (i.1 = c ∧ i.2.1 = k)) (hne : slot i ≠ 0) : slot i ≠ slot (c, k, part) := by
  intro heq
  have hsame := h.owns.apart i (c, k, part) hne heq
  exact hi ⟨congrArg Prod.fst hsame, congrArg (fun j => j.2.1) hsame⟩

/-- `gethostbyname_r` writes the blocks of its caller. -/
theorem Held.filled (h : Held s slot) (hk : k ∈ s.hostKeys) (hp : s.spec c k ≠ 0) {w : HostBuf}
    (hw : Furnished s.heap (s.spec c k) w) (a : HostAnswer) :
    Change s (s.filled (s.spec c k) w a) c k slot slot ∧
      Furnished (s.filled (s.spec c k) w a).heap (s.spec c k) (State.answered w a) := by
  obtain ⟨content, hbytes⟩ := hw.bytes
  have hbuffer := h.buffer_eq hk hp hw
  have hwrap := h.wrap c k hk
  have hne : w.buffer ≠ s.spec c k := hw.buffer_ne
  have hfurnished : Furnished (s.filled (s.spec c k) w a).heap (s.spec c k) (State.answered w a) :=
    { blocks := Heap.write_self
      buffer := hw.buffer
      bytes := ⟨a.entry, filled_buffer hw a⟩
      size := hw.size
      small := hw.small }
  refine ⟨?_, hfurnished⟩
  constructor
  · apply Heap.Owns.write
    · apply h.owns.write
      rw [hbytes]
      rfl
    · rw [Heap.write_of_ne hne.symm, hw.blocks]
      rfl
  · rfl
  · exact fun _ _ => rfl
  · intro i hi hslot
    have hnewrap : slot i ≠ s.spec c k := hwrap ▸ h.ne_of_other hi hslot
    have hnebuffer : slot i ≠ w.buffer := hbuffer ▸ h.ne_of_other hi hslot
    exact (Heap.write_of_ne hnewrap).trans (Heap.write_of_ne hnebuffer)
  · exact fun _ _ _ => rfl
  · exact hwrap
  · rw [hwrap]
    exact ⟨State.answered w a, hfurnished, hbuffer⟩

/-- A caller gets a new buffer in the place of the old one. -/
theorem Held.rebuffered (h : Held s slot) (hk : k ∈ s.hostKeys) (hp : s.spec c k ≠ 0) {w : HostBuf}
    (hw : Furnished s.heap (s.spec c k) w) {size : BitVec 64}
    (hsize : ∃ i, size.toNat = 1024 * 2 ^ i) (hsmall : size.toNat < 2 ^ 63) :
    Change s (s.rebuffered (s.spec c k) w size) c k slot
      (Function.update slot (c, k, .buffer) s.heap.next) := by
  have hbuffer := h.buffer_eq hk hp hw
  have hwrap := h.wrap c k hk
  have hslotne : slot (c, k, .buffer) ≠ 0 := hbuffer ▸ hw.buffer
  have hpnext : s.spec c k ≠ s.heap.next := hwrap ▸ h.owns.ne_next (hwrap ▸ hp)
  have hpbuffer : s.spec c k ≠ w.buffer := hw.buffer_ne.symm
  have hwrap' : Function.update slot (c, k, .buffer) s.heap.next (c, k, .wrap) = s.spec c k := by
    rw [Function.update_of_ne (by simp)]
    exact hwrap
  constructor
  · have hfree := h.owns.free hslotne
    have halloc := hfree.alloc (Function.update_self ..) (.bytes size.toNat 0)
    rw [Function.update_idem, ← hbuffer] at halloc
    refine halloc.write ?_ _
    rw [Heap.alloc_of_ne (h := s.heap.free w.buffer) hpnext, Heap.free_of_ne hpbuffer, hw.blocks]
    rfl
  · rfl
  · intro i hi
    apply Function.update_of_ne
    rintro rfl
    exact hi ⟨rfl, rfl⟩
  · intro i hi hslot
    have hnewrap : slot i ≠ s.spec c k := hwrap ▸ h.ne_of_other hi hslot
    have hnebuffer : slot i ≠ w.buffer := hbuffer ▸ h.ne_of_other hi hslot
    refine (Heap.write_of_ne hnewrap).trans ?_
    exact (Heap.alloc_of_ne (h := s.heap.free w.buffer) (h.owns.ne_next hslot)).trans
      (Heap.free_of_ne hnebuffer)
  · exact fun _ _ _ => rfl
  · exact hwrap'
  · rw [hwrap', Function.update_self]
    refine ⟨{ w with buffer := s.heap.next, bufferSize := size }, ?_, rfl⟩
    exact
      { blocks := Heap.write_self
        buffer := h.owns.next_ne
        bytes := ⟨0, (Heap.write_of_ne hpnext.symm).trans Heap.alloc_self⟩
        size := hsize
        small := hsmall }

theorem spec_first (s : State) (c : Caller) (p : Ptr) (w : HostBuf) (size : BitVec 64) :
    ((s.wrapped c).fed p w size).spec c s.key = s.heap.next := by
  simp [State.fed, State.wrapped, State.setSpec]

/-- A caller gets its first blocks. -/
theorem Held.first (h : Held s slot) (hk : s.key ∈ s.hostKeys) (hnone : s.spec c s.key = 0) :
    Change s ((s.wrapped c).fed s.heap.next ⟨0, 0, 0, 0⟩ 1024) c s.key slot
      (Function.update (Function.update slot (c, s.key, .wrap) s.heap.next) (c, s.key, .buffer)
        (s.heap.next + 1)) := by
  have hwrap := h.wrap c s.key hk
  have hnext : s.heap.next ≠ s.heap.next + 1 := Nat.ne_of_lt (Nat.lt_succ_self _)
  have hwrap' : Function.update (Function.update slot (c, s.key, .wrap) s.heap.next)
      (c, s.key, .buffer) (s.heap.next + 1) (c, s.key, .wrap) = s.heap.next := by
    rw [Function.update_of_ne (by simp), Function.update_self]
  constructor
  · have hfirst := h.owns.alloc (hwrap.trans hnone) (.wrap ⟨0, 0, 0, 0⟩)
    have hbuffer : Function.update slot (c, s.key, .wrap) s.heap.next (c, s.key, .buffer) = 0 := by
      rw [Function.update_of_ne (by simp)]
      exact h.none c s.key (hwrap.trans hnone)
    have hsecond := hfirst.alloc hbuffer (.bytes (1024 : BitVec 64).toNat 0)
    refine hsecond.write ?_ _
    rw [Heap.alloc_of_ne hnext, Heap.alloc_self]
    rfl
  · rfl
  · intro i hi
    rw [Function.update_of_ne, Function.update_of_ne]
    · rintro rfl
      exact hi ⟨rfl, rfl⟩
    · rintro rfl
      exact hi ⟨rfl, rfl⟩
  · intro i hi hslot
    have hne := h.owns.ne_next hslot
    have hne' : slot i ≠ s.heap.next + 1 := by
      intro heq
      have hlive := h.owns.live i hslot
      rw [heq, h.owns.fresh _ (Nat.le_succ _)] at hlive
      cases hlive
    exact (Heap.write_of_ne hne).trans ((Heap.alloc_of_ne hne').trans (Heap.alloc_of_ne hne))
  · intro c' k' hother
    by_cases hc : c' = c
    · subst hc
      have hkey : k' ≠ s.key := fun hkey => hother ⟨rfl, hkey⟩
      simp [State.fed, State.wrapped, State.setSpec, Function.update_of_ne hkey]
    · simp [State.fed, State.wrapped, State.setSpec, Function.update_of_ne hc]
  · exact hwrap'.trans (spec_first s c _ _ _).symm
  · rw [hwrap', Function.update_self]
    refine ⟨⟨0, s.heap.next + 1, 1024, 0⟩, ?_, rfl⟩
    exact
      { blocks := Heap.write_self
        buffer := Nat.succ_ne_zero _
        bytes := ⟨0, (Heap.write_of_ne hnext.symm).trans Heap.alloc_self⟩
        size := ⟨0, rfl⟩
        small := show (1024 : BitVec 64).toNat < 2 ^ 63 by decide }

end Changes

section Preservation

variable {s t : State}

theorem Held.of_eq {slot : Slot → Ptr} (h : Held s slot) (hheap : t.heap = s.heap)
    (hkeys : t.hostKeys = s.hostKeys) (hspec : ∀ c k, k ∈ s.hostKeys → t.spec c k = s.spec c k) :
    Held t slot where
  owns := hheap ▸ h.owns
  outside := by
    rw [hkeys]
    exact h.outside
  wrap := by
    intro c k hk
    rw [hkeys] at hk
    rw [hspec c k hk]
    exact h.wrap c k hk
  none := h.none
  some := by
    rw [hheap]
    exact h.some

theorem Change.of_eq {u : State} {c : Caller} {k : Key} {slot slot' : Slot → Ptr}
    (h : Change s t c k slot slot') (hheap : u.heap = t.heap) (hkeys : u.hostKeys = t.hostKeys)
    (hspec : u.spec = t.spec) : Change s u c k slot slot' where
  owns := hheap ▸ h.owns
  keys := hkeys.trans h.keys
  slots := h.slots
  kept := by
    rw [hheap]
    exact h.kept
  spec := by
    rw [hspec]
    exact h.spec
  wrap := by
    rw [hspec]
    exact h.wrap
  full := by
    rw [hheap]
    exact h.full

theorem Change.trans {u : State} {c : Caller} {k : Key} {slot slot' slot'' : Slot → Ptr}
    (h : Change s t c k slot slot') (h' : Change t u c k slot' slot'') :
    Change s u c k slot slot'' where
  owns := h'.owns
  keys := h'.keys.trans h.keys
  slots := fun i hi => (h'.slots i hi).trans (h.slots i hi)
  kept := by
    intro i hi hne
    have hsame := h.slots i hi
    rw [← h.kept i hi hne, ← hsame]
    exact h'.kept i hi (hsame ▸ hne)
  spec := fun c' k' hother => (h'.spec c' k' hother).trans (h.spec c' k' hother)
  wrap := h'.wrap
  full := h'.full

/-- The lookups that go on after a step that leaves the keys alone. -/
theorem Inv.changed (h : Inv s) (hkey : t.key = s.key) (hkeys : t.hostKeys = s.hostKeys)
    (huser : t.userKeys = s.userKeys) (held : ∃ slot, Held t slot)
    (hspec : ∀ c k, k ∉ s.hostKeys → t.spec c k = s.spec c k)
    (hcalls : ∀ c p, t.calls c = some p → p ≠ 0 ∧ ∃ k ∈ s.hostKeys, t.spec c k = p) : Inv t where
  key := by
    rw [hkey, hkeys]
    exact h.key
  apart := by
    rw [huser, hkeys]
    exact h.apart
  unset := by
    intro c k hk hk'
    rw [hkeys] at hk
    rw [huser] at hk'
    rw [hspec c k hk]
    exact h.unset c k hk hk'
  held := held
  calls := by
    rw [hkeys]
    exact hcalls

/-- The blocks of a caller change while it is in a lookup with the `hostbuf_wrap` at `p`. -/
theorem Inv.looking (h : Inv s) {c : Caller} {k : Key} {p : Ptr} {slot slot' : Slot → Ptr}
    (held : Held s slot) (hk : k ∈ s.hostKeys) (hchange : Change s t c k slot slot')
    (hkey : t.key = s.key) (huser : t.userKeys = s.userKeys) (hp : p ≠ 0) (hspec : t.spec c k = p)
    (hcalls : t.calls = Function.update s.calls c (some p)) : Inv t := by
  refine h.changed hkey hchange.keys huser ⟨slot', hchange.held held hk⟩ ?_ ?_
  · intro c' k' hk'
    exact hchange.spec c' k' fun hand => hk' (hand.2 ▸ hk)
  · intro c' p' hp'
    rw [hcalls] at hp'
    by_cases hc : c' = c
    · subst hc
      rw [Function.update_self, Option.some.injEq] at hp'
      subst hp'
      exact ⟨hp, k, hk, hspec⟩
    · rw [Function.update_of_ne hc] at hp'
      obtain ⟨hne, k', hk', hspec'⟩ := h.calls c' p' hp'
      exact ⟨hne, k', hk', (hchange.spec c' k' fun hand => hc hand.1).trans hspec'⟩

/-- Only the log changes, and which lookups go on. -/
theorem Inv.same (h : Inv s) (hkey : t.key = s.key) (hkeys : t.hostKeys = s.hostKeys)
    (huser : t.userKeys = s.userKeys) (hheap : t.heap = s.heap) (hspec : t.spec = s.spec)
    (hcalls : ∀ c p, t.calls c = some p → p ≠ 0 ∧ ∃ k ∈ s.hostKeys, s.spec c k = p) : Inv t := by
  obtain ⟨slot, held⟩ := h.held
  have held' : Held t slot := held.of_eq hheap hkeys fun c k _ => by rw [hspec]
  refine h.changed hkey hkeys huser ⟨slot, held'⟩ (fun c k _ => by rw [hspec]) ?_
  rw [hspec]
  exact hcalls

theorem twice_size {x : BitVec 64} (hx : x.toNat < 2 ^ 62) (hsize : ∃ i, x.toNat = 1024 * 2 ^ i) :
    (∃ i, (x * 2).toNat = 1024 * 2 ^ i) ∧ (x * 2).toNat < 2 ^ 63 := by
  have htwice : (x * 2).toNat = x.toNat * 2 := toNat_twice (by omega)
  obtain ⟨i, hi⟩ := hsize
  refine ⟨⟨i + 1, ?_⟩, by omega⟩
  rw [htwice, hi, Nat.pow_succ, Nat.mul_assoc]

/-- The memory of an answer that lets a lookup try again. -/
theorem Held.grown {c : Caller} {k : Key} {slot : Slot → Ptr} (h : Held s slot)
    (hk : k ∈ s.hostKeys) (hp : s.spec c k ≠ 0) {w : HostBuf}
    (hw : Furnished s.heap (s.spec c k) w) (a : HostAnswer) (hsize : w.bufferSize.toNat < 2 ^ 62) :
    Change s ((s.filled (s.spec c k) w a).rebuffered (s.spec c k) (State.answered w a)
      (w.bufferSize * 2)) c k slot (Function.update slot (c, k, .buffer) s.heap.next) := by
  obtain ⟨hfilled, hanswered⟩ := h.filled hk hp hw a
  obtain ⟨hpower, hsmall⟩ := twice_size hsize hw.size
  have held : Held (s.filled (s.spec c k) w a) slot := hfilled.held h hk
  exact hfilled.trans (held.rebuffered hk hp hanswered hpower hsmall)

theorem Effect.inv (h : Inv s) {a : Act} (he : Effect s a (.ok t)) : Inv t := by
  obtain ⟨slot, held⟩ := h.held
  cases he with
  | @initEnv key hnew =>
      obtain ⟨-, hhost, huser⟩ := of_decide_eq_true hnew
      constructor
      · exact fun _ => List.mem_cons_self
      · intro k hk hmem
        rcases List.mem_cons.mp hmem with rfl | hmem
        · exact huser hk
        · exact h.apart k hk hmem
      · exact fun c k hk hk' => h.unset c k (fun hmem => hk (List.mem_cons_of_mem _ hmem)) hk'
      · refine ⟨slot, held.owns, fun c k part hk => ?_, fun c k hk => ?_, held.none, held.some⟩
        · exact held.outside c k part fun hmem => hk (List.mem_cons_of_mem _ hmem)
        · rcases List.mem_cons.mp hk with rfl | hmem
          · rw [held.outside c k .wrap hhost]
            exact (h.unset c k hhost huser).symm
          · exact held.wrap c k hmem
      · intro c p hp
        obtain ⟨hne, k, hk, hspec⟩ := h.calls c p hp
        exact ⟨hne, k, List.mem_cons_of_mem _ hk, hspec⟩
  | @createKey key hnew =>
      obtain ⟨-, hhost, huser⟩ := of_decide_eq_true hnew
      constructor
      · exact h.key
      · intro k hk
        rcases List.mem_cons.mp hk with rfl | hk
        · exact hhost
        · exact h.apart k hk
      · exact fun c k hk hk' => h.unset c k hk fun hmem => hk' (List.mem_cons_of_mem _ hmem)
      · exact ⟨slot, held.owns, held.outside, held.wrap, held.none, held.some⟩
      · exact h.calls
  | @set c key value ok hkey =>
      have hspec : ∀ c' k, k ≠ key → (s.setSpec c key value).spec c' k = s.spec c' k :=
        fun c' k hk => setSpec_of_ne hk c c' value
      have hhost : ∀ k ∈ s.hostKeys, k ≠ key := by
        rintro k hk rfl
        exact h.apart k hkey hk
      constructor
      · exact h.key
      · exact h.apart
      · intro c' k hk hk'
        rw [hspec c' k fun heq => hk' (heq ▸ hkey)]
        exact h.unset c' k hk hk'
      · exact ⟨slot, held.of_eq rfl rfl fun c' k hk => hspec c' k (hhost k hk)⟩
      · intro c' p hp
        obtain ⟨hne, k, hk, hspec'⟩ := h.calls c' p hp
        exact ⟨hne, k, hk, (hspec c' k (hhost k hk)).trans hspec'⟩
  | unset => exact h
  | native => exact h
  | nameless hcall => exact h.same rfl rfl rfl rfl rfl h.calls
  | @first c name given hcall hkey hnone hgiven =>
      exact h.looking held hkey ((held.first hkey hnone).of_eq rfl rfl rfl) rfl rfl h.next_ne
        (spec_first (s.emit [.entered c]) c s.heap.next ⟨0, 0, 0, 0⟩ 1024) rfl
  | @again c name given w hcall hkey hsome hw hsize =>
      refine h.same rfl rfl rfl rfl rfl fun c' p hp => ?_
      change Function.update s.calls c _ c' = some p at hp
      by_cases hc : c' = c
      · subst hc
        rw [Function.update_self, Option.some.injEq] at hp
        subst hp
        exact ⟨hsome, s.key, hkey, rfl⟩
      · rw [Function.update_of_ne hc] at hp
        exact h.calls c' p hp
  | @renew c name given w hcall hkey hsome hw hgiven =>
      have hchange : Change s (s.rebuffered (s.spec c s.key) w 1024) c s.key slot _ :=
        held.rebuffered hkey hsome hw ⟨0, rfl⟩ (by decide)
      exact h.looking held hkey (hchange.of_eq rfl rfl rfl) rfl rfl hsome rfl rfl
  | @grow c k p w a ok hcall hkey hp hsome hw hsize hretry hok =>
      subst hp
      exact h.looking held hkey ((held.grown hkey hsome hw a hsize).of_eq rfl rfl rfl) rfl rfl hsome
        rfl rfl
  | @done c k p w a ok hcall hkey hp hsome hw hretry =>
      subst hp
      have held' := (held.filled hkey hsome hw a).1.held held hkey
      refine h.changed rfl rfl rfl ⟨slot, held'.of_eq rfl rfl fun _ _ _ => rfl⟩
        (fun _ _ _ => rfl) fun c' p hp => ?_
      change Function.update s.calls c none c' = some p at hp
      have hc : c' ≠ c := by
        rintro rfl
        rw [Function.update_self] at hp
        cases hp
      rw [Function.update_of_ne hc] at hp
      exact h.calls c' p hp

end Preservation

/-- The states of host lookups. -/
def State.Reached (s : State) : Prop := Reaches State.step always State.start s

theorem Inv.step_cases {s t : State} {a : Act} (h : Inv s) (hstep : s.step a = some t) :
    Effect s a (.ok t) ∨ ∃ f, t = { s with fault := some f } := by
  rw [State.step, Option.ite_none_left_eq_some, Option.map_eq_some_iff] at hstep
  obtain ⟨-, r, hr, hrt⟩ := hstep
  have heffect := h.effect hr
  cases r with
  | ok u =>
      subst hrt
      exact Or.inl heffect
  | error f => exact Or.inr ⟨f, hrt.symm⟩

theorem State.Reached.inv {s : State} (h : s.Reached) : Inv s := by
  refine h.invariant inv_start ?_
  intro u a v _ hu _ hstep
  rcases hu.step_cases hstep with heffect | ⟨f, rfl⟩
  · exact heffect.inv hu
  · exact hu.same rfl rfl rfl rfl rfl hu.calls

/-! ### What can go wrong, and who owns a block -/

section Results

variable {s : State}

/-- A step that succeeds has been given what it needs. -/
theorem Effect.not_starves {a : Act} {t : State} (h : Inv s) (he : Effect s a (.ok t)) :
    ¬ s.Starves a := by
  intro hstarves
  cases he with
  | initEnv hnew => exact hstarves
  | createKey hnew => exact hstarves
  | set hkey => exact hstarves
  | unset => exact hstarves
  | native => cases hstarves.2.1
  | nameless hcall => exact hstarves.2.2.1 rfl
  | first hcall hkey hnone hgiven =>
      rcases hstarves.2.2.2 with ⟨-, hfail⟩ | ⟨w, hw, -⟩
      · rw [hgiven.1, hgiven.2] at hfail
        rcases hfail with hfail | hfail <;> cases hfail
      · rw [hnone, h.null] at hw
        cases hw
  | again hcall hkey hsome hw hsize =>
      rcases hstarves.2.2.2 with ⟨hnone, -⟩ | ⟨w', hw', hlarge, -⟩
      · exact hsome hnone
      · obtain rfl := Block.wrap.inj (Option.some.inj (hw.blocks.symm.trans hw'))
        exact BitVec.not_le.mpr hlarge hsize
  | renew hcall hkey hsome hw hgiven =>
      rcases hstarves.2.2.2 with ⟨hnone, -⟩ | ⟨w', -, -, hfail⟩
      · exact hsome hnone
      · rw [hgiven] at hfail
        cases hfail
  | grow hcall hkey hp hsome hw hsize hretry hok =>
      obtain ⟨p', w', hcall', hw', -, -, hfail⟩ := hstarves
      obtain rfl := Option.some.inj (hcall.symm.trans hcall')
      obtain rfl := Block.wrap.inj (Option.some.inj (hw.blocks.symm.trans hw'))
      rcases hfail with hfail | hlarge
      · rw [hok] at hfail
        cases hfail
      · omega
  | done hcall hkey hp hsome hw hretry =>
      obtain ⟨p', w', -, -, hret, herrno, -⟩ := hstarves
      exact hretry ⟨hret, herrno⟩

/-- A lookup fails exactly when an allocation it needs fails; it then follows the null pointer.
No block is used after it was given back, and no buffer is too small, whatever lookups of
other coroutines run in between. -/
theorem lookup_fails_iff (h : s.Reached) (a : Act) (f : Fault) :
    s.perform a = some (.error f) ↔ f = .access 0 ∧ s.Starves a := by
  have hinv := h.inv
  constructor
  · intro hp
    cases hinv.effect hp with
    | starved hstarves => exact ⟨rfl, hstarves⟩
  · rintro ⟨rfl, hstarves⟩
    -- The action is possible, and none of the steps that succeed fits it.
    have hpossible : ∃ r, s.perform a = some r := by
      cases a with
      | gethostbyname c hooks name given =>
          obtain ⟨⟨hcall, hmay⟩, -⟩ := hstarves
          exact ⟨_, if_pos ⟨hcall, fun _ => hmay⟩⟩
      | answer c a ok =>
          obtain ⟨p, w, hcall, -⟩ := hstarves
          exact ⟨s.resume c p a ok, by rw [State.perform, hcall]; rfl⟩
      | initEnv key => exact hstarves.elim
      | createKey key => exact hstarves.elim
      | setspecific c key value ok => exact hstarves.elim
    obtain ⟨r, hr⟩ := hpossible
    rw [hr]
    have heffect := hinv.effect hr
    cases r with
    | ok t => exact absurd hstarves (heffect.not_starves hinv)
    | error f =>
        cases heffect with
        | starved => rfl

/-- A larger buffer is refused to a lookup. -/
theorem lookup_fails_iff_refused : ∃ s : State, s.Reached ∧
    s.perform (.answer (.coroutine 1) ⟨erange, netdbInternal, false, 9⟩ false) =
      some (.error (.access 0)) := by
  let acts : List Act := [.initEnv 3,
    .gethostbyname (.coroutine 1) true (some 0) ⟨true, true, true⟩]
  obtain ⟨s, hs, hread⟩ := Option.map_eq_some_iff.mp (show
    (exec State.step State.start acts).map (fun s => (s.calls (.coroutine 1), s.heap.blocks 1)) =
      some (some 1, some (.wrap ⟨0, 2, 1024, 0⟩)) by decide +kernel)
  obtain ⟨hcall, hw⟩ := Prod.mk.inj hread
  have hreached : s.Reached := exec_reaches (fun _ _ _ => trivial) hs
  refine ⟨s, hreached, (lookup_fails_iff hreached _ _).mpr ⟨rfl, ?_⟩⟩
  exact ⟨1, _, hcall, hw, rfl, rfl, Or.inl rfl⟩

/-- The block at `p` is that of a caller under a key: its `hostbuf_wrap` or the buffer of that. -/
def Owner (s : State) (p : Ptr) (c : Caller) (k : Key) : Prop :=
  k ∈ s.hostKeys ∧ (s.spec c k = p ∨
    ∃ w, s.heap.blocks (s.spec c k) = some (.wrap w) ∧ w.buffer = p)

/-- A caller owns a block exactly if one of its two slots holds it. -/
theorem Held.owner_iff {slot : Slot → Ptr} (held : Held s slot) {p : Ptr} (hp : p ≠ 0) (c : Caller)
    (k : Key) : Owner s p c k ↔ ∃ part, slot (c, k, part) = p := by
  constructor
  · rintro ⟨hk, rfl | ⟨w, hw, rfl⟩⟩
    · exact ⟨.wrap, held.wrap c k hk⟩
    · have hsome : slot (c, k, .wrap) ≠ 0 := by
        rw [held.wrap c k hk]
        intro hnull
        rw [hnull, held.owns.null] at hw
        cases hw
      obtain ⟨w', hw', hbuffer⟩ := held.some c k hsome
      rw [held.wrap c k hk] at hw'
      obtain rfl := Block.wrap.inj (Option.some.inj (hw.symm.trans hw'.blocks))
      exact ⟨.buffer, hbuffer.symm⟩
  · rintro ⟨part, rfl⟩
    have hk : k ∈ s.hostKeys := by
      by_contra hk
      exact hp (held.outside c k part hk)
    refine ⟨hk, ?_⟩
    cases part with
    | wrap => exact Or.inl (held.wrap c k hk).symm
    | buffer =>
        have hsome : slot (c, k, .wrap) ≠ 0 := fun hnull => hp (held.none c k hnull)
        obtain ⟨w, hw, hbuffer⟩ := held.some c k hsome
        rw [held.wrap c k hk] at hw
        exact Or.inr ⟨w, hw.blocks, hbuffer⟩

/-- Every block belongs to one coroutine under one key: none is shared, and none is out of reach of
the coroutine it was made for. -/
theorem blocks_owned (h : s.Reached) {p : Ptr} (hp : (s.heap.blocks p).isSome = true) :
    ∃! ck : Caller × Key, Owner s p ck.1 ck.2 := by
  obtain ⟨slot, held⟩ := h.inv.held
  have hzero : p ≠ 0 := by
    rintro rfl
    rw [held.owns.null] at hp
    cases hp
  obtain ⟨⟨c, k, part⟩, hslot⟩ := held.owns.only p hp
  refine ⟨(c, k), (held.owner_iff hzero c k).mpr ⟨part, hslot⟩, ?_⟩
  rintro ⟨c', k'⟩ hown
  obtain ⟨part', hslot'⟩ := (held.owner_iff hzero c' k').mp hown
  have hsame := held.owns.apart (c', k', part') (c, k, part) (hslot' ▸ hzero)
    (hslot'.trans hslot.symm)
  rw [Prod.mk.injEq, Prod.mk.injEq] at hsame
  rw [hsame.1, hsame.2.1]

/-- Two coroutines have looked up a name; the block 4 is the buffer of the second. -/
theorem blocks_owned_two : ∃ s : State, s.Reached ∧ (s.heap.blocks 4).isSome = true ∧
    ∃! ck : Caller × Key, Owner s 4 ck.1 ck.2 := by
  let acts : List Act := [.initEnv 3,
    .gethostbyname (.coroutine 1) true (some 0) ⟨true, true, true⟩,
    .gethostbyname (.coroutine 2) true (some 1) ⟨true, true, true⟩]
  obtain ⟨s, hs, hp⟩ := Option.map_eq_some_iff.mp (show
    (exec State.step State.start acts).map (fun s => (s.heap.blocks 4).isSome) = some true by
      decide +kernel)
  have hreached : s.Reached := exec_reaches (fun _ _ _ => trivial) hs
  exact ⟨s, hreached, hp, blocks_owned hreached hp⟩

end Results

end HostLookup

end Libcr
