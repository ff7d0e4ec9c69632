import Libcr.Old.Step

/-!
# The invariant of the old scheduler

What holds of the old scheduler between any two steps. The vector `coros_`, the id map and
the live objects agree. A coroutine can be resumed, or it has been resumed and has control or
has itself called `Resume` or `Run`. While `main_` can be switched to, `running_` names the
coroutine that has control; otherwise it names none, or one that waits for a descriptor. Every
descriptor in the epoll set has its `Socket` in `socks_`, and some coroutine waits for it; the
entries whose descriptors were closed have lost theirs. `active_` holds every coroutine ever
made, those that have been deleted as well.
-/

namespace Libcr

namespace Old

/-- What is found after an entry was removed was found before, elsewhere. -/
theorem of_update_none {α β : Type*} [DecidableEq α] {f : α → Option β} {a b : α} {x : β}
    (h : Function.update f a none b = some x) : b ≠ a ∧ f b = some x := by
  by_cases hba : b = a
  · rw [hba, Function.update_self] at h
    cases h
  · exact ⟨hba, (Function.update_of_ne hba ..).symm.trans h⟩

/-- The coroutine can be resumed. -/
def Coroutine.Resting (co : Coroutine) : Prop :=
  co.status = .ready ∧ co.pc = .entry ∨
    co.status = .suspend ∧ (co.pc = .yielded ∨ ∃ call, co.pc = .waiting call)

/-- The coroutine has been resumed. -/
def Coroutine.Executing (co : Coroutine) : Prop :=
  co.status = .running ∧ (co.pc = .user ∨ ∃ call, co.pc = .native call)

/-- The call of `Accept`, `Recv` or `Send` a coroutine is in. -/
def Pc.call? : Pc → Option IoCall
  | .waiting call => some call
  | .native call => some call
  | _ => none

/-- The local variables on the stack of the coroutine `p` are about `p`, and in the loop of a
call its condition holds. -/
structure Coroutine.Own (p : CoPtr) (co : Coroutine) : Prop where
  locals : co.pc ≠ .entry → co.locals = some (co.id, p)
  call : ∀ call, co.pc.call? = some call → call.coro = p
  loop : ∀ call, co.pc = .native call → call.head = .loop call

/-- The ids of the live coroutines. -/
def Sched.idOf (s : Sched) (p : CoPtr) : Option Int := (s.coroutines p).map Coroutine.id

theorem Sched.idOf_eq (s : Sched) {p : CoPtr} {co : Coroutine} (hco : s.coroutines p = some co) :
    s.idOf p = some co.id := by
  simp [idOf, hco]

/-- `coros_` and the id map agree with the live coroutines, given by their ids. -/
structure Table (coros : Nat → CoPtr) (ids : CoPtr → Option Int) (nextCo : CoPtr)
    (map : IdMap) : Prop where
  pos : 0 < nextCo
  null : ids 0 = none
  fresh : ∀ p, nextCo ≤ p → ids p = none
  entry : ∀ p id, ids p = some id → 0 ≤ id ∧ id ≤ map.lastId ∧ coros id.toNat = p
  made : ∀ i, coros i ≠ 0 → ids (coros i) = some (i : Int)
  live : ∃ live, (IdUse.mk map live).Inv ∧ ∀ id, id ∈ live ↔ ∃ p, ids p = some id
  last : -1 ≤ map.lastId ∧ map.lastId < kCoroNum

/-- The caller of `Resume` whose context can be switched to from the coroutine `p`. -/
def Sched.CanReturn (s : Sched) (p : CoPtr) : Resumer → Prop
  | .main => True
  | .run i => i < s.active.length
  | .coroutine q => q ≠ p ∧ ∃ co, s.coroutines q = some co ∧ co.status = .running ∧ co.pc = .user

/-- `running_` names no coroutine, or one that waits. -/
def Sched.Stray (s : Sched) : Prop :=
  s.running = -1 ∨ ∃ p co call, s.coroutines p = some co ∧ co.pc = .waiting call ∧
    s.running = co.id

/-- Who has control, and where the coroutines are. -/
structure Placed (s : Sched) : Prop where
  own : ∀ p co, s.coroutines p = some co → co.Own p
  places : ∀ p co, s.coroutines p = some co → co.Resting ∨ co.Executing
  native : ∀ p co call, s.coroutines p = some co → co.pc = .native call →
    s.control = .coroutine p ∧ s.main.isSome = true
  executing : ∀ p, s.control = .coroutine p → ∃ co, s.coroutines p = some co ∧ co.Executing
  saved : ∀ p r, s.control = .coroutine p → s.main = some r →
    s.idOf p = some s.running ∧ s.CanReturn p r
  stray : s.main = none → s.Stray
  main : s.control = .main → s.main = none
  run : ∀ i, s.control = .run i → i ≤ s.active.length

/-- A coroutine waits for the descriptor and has not been resumed since it added it. -/
def FirstWait (coroutines : CoPtr → Option Coroutine) (fd : Fd) (mask : BitVec 32) : Prop :=
  ∃ p co call, coroutines p = some co ∧ co.pc = .waiting call ∧ call.fd = fd ∧
    call.retries = 0 ∧ mask = call.kind.mask

/-- The `Socket` objects and the epoll set. -/
structure Nets (s : Sched) : Prop where
  pos : 0 < s.nextSock
  null : s.sockets 0 = none
  fresh : ∀ k, s.nextSock ≤ k → s.sockets k = none
  socks : ∀ i, s.socks i ≠ 0 → ∃ sock, s.sockets (s.socks i) = some sock ∧ sock.fd = i
  coro : ∀ k sock, s.sockets k = some sock → 0 < sock.coro ∧ sock.coro < s.nextCo
  registered : ∀ fd r, s.epoll fd = some r → 0 ≤ fd ∧ fd < kCoroNum ∧
    s.socks fd.toNat = r.1 ∧ r.1 ≠ 0 ∧ FirstWait s.coroutines fd r.2
  orphans : ∀ k ∈ s.orphans, k < s.nextSock ∧ s.sockets k = none

/-- The invariant of the old scheduler. -/
structure Inv (s : Sched) : Prop where
  table : Table s.coros s.idOf s.nextCo s.idMap
  placed : Placed s
  nets : Nets s
  active : ∀ p, p ∈ s.active ↔ 0 < p ∧ p < s.nextCo

theorem inv_new : Inv Sched.new where
  table :=
    { pos := Nat.zero_lt_one
      null := rfl
      fresh := fun _ _ => rfl
      entry := by simp [Sched.idOf, Sched.new]
      made := by simp [Sched.new]
      live := ⟨[], IdUse.inv_new, by simp [Sched.idOf, Sched.new]⟩
      last := by decide }
  placed :=
    { own := by simp [Sched.new]
      places := by simp [Sched.new]
      native := by simp [Sched.new]
      executing := by simp [Sched.new]
      saved := by simp [Sched.new]
      stray := fun _ => Or.inl rfl
      main := fun _ => rfl
      run := by simp [Sched.new] }
  nets :=
    { pos := Nat.zero_lt_one
      null := rfl
      fresh := fun _ _ => rfl
      socks := by simp [Sched.new]
      coro := by simp [Sched.new]
      registered := by simp [Sched.new]
      orphans := by simp [Sched.new] }
  active := by
    intro p
    simp only [Sched.new, List.not_mem_nil, false_iff]
    rintro ⟨hpos, hlt⟩
    exact absurd hlt (Nat.not_lt.mpr hpos)

section Ids

open IdMap

variable {coros : Nat → CoPtr} {ids : CoPtr → Option Int} {nextCo : CoPtr} {map : IdMap}

/-- The ids of live coroutines differ. -/
theorem Table.inj (h : Table coros ids nextCo map) {p q : CoPtr} {id : Int}
    (hp : ids p = some id) (hq : ids q = some id) : p = q :=
  (h.entry p id hp).2.2.symm.trans (h.entry q id hq).2.2

theorem Table.pos_of_live (h : Table coros ids nextCo map) {p : CoPtr} {id : Int}
    (hp : ids p = some id) : 0 < p := by
  apply Nat.pos_of_ne_zero
  rintro rfl
  rw [h.null] at hp
  cases hp

theorem Table.lt_of_live (h : Table coros ids nextCo map) {p : CoPtr} {id : Int}
    (hp : ids p = some id) : p < nextCo := by
  by_contra hge
  rw [h.fresh p (Nat.le_of_not_lt hge)] at hp
  cases hp

/-- While all ids are below 256, the search for a clear bit does not come to the end: an id
after the last one is found. -/
theorem Table.allocate (h : Table coros ids nextCo map) :
    ∃ id : Nat, map.lastId < id ∧ id < 32768 ∧ map.allocate.1 = id ∧
      map.allocate.2.lastId = id := by
  obtain ⟨live, hinv, hlive⟩ := h.live
  have hlast := h.last
  have hkCoroNum : (kCoroNum : Int) = 256 := rfl
  have hoffset : offsetOf (map.lastId + 1) = (map.lastId + 1).toNat :=
    offsetOf_of_range (by omega)
  -- No id below 256 has its bit in the second word.
  have hclear : ¬ Taken map.page 512 := by
    intro htaken
    obtain ⟨id, hid, hcell⟩ := (hinv.taken_iff 512).mp htaken
    obtain ⟨p, hp⟩ := (hlive id).mp hid
    have hentry := h.entry p id hp
    have hword : id.toNat / 512 = 1 := congrArg Prod.fst hcell
    omega
  rcases map.allocate_cases hinv.nrFree_ne_zero with ⟨htaken, -⟩ | ⟨o, hle, hlt, -, -, heq⟩
  · exact absurd (htaken 512 (by omega) (by decide)) hclear
  · have hlt : o < 32768 := hlt
    exact ⟨o, by omega, hlt, by rw [heq], by rw [heq]⟩

/-- `Spawn` enters a new coroutine into the table. -/
theorem Table.spawn (h : Table coros ids nextCo map) {id : Nat}
    (hid : map.allocate.1 = id) (hlt : id < kCoroNum) :
    Table (Function.update coros id nextCo) (Function.update ids nextCo (some (id : Int)))
      (nextCo + 1) map.allocate.2 := by
  obtain ⟨o, hlast, -, ho, hlast'⟩ := h.allocate
  obtain rfl : o = id := Int.natCast_inj.mp (ho.symm.trans hid)
  constructor
  case pos => exact Nat.succ_pos _
  case null =>
    rw [Function.update_of_ne h.pos.ne]
    exact h.null
  case fresh =>
    intro p hp
    rw [Function.update_of_ne (Nat.lt_of_succ_le hp).ne']
    exact h.fresh p (Nat.le_of_succ_le hp)
  case entry =>
    intro p id hp
    rw [hlast']
    by_cases hpn : p = nextCo
    · subst hpn
      rw [Function.update_self, Option.some.injEq] at hp
      subst hp
      rw [Int.toNat_natCast, Function.update_self]
      exact ⟨by omega, le_rfl, rfl⟩
    · rw [Function.update_of_ne hpn] at hp
      obtain ⟨hnonneg, hle, hcoros⟩ := h.entry p id hp
      refine ⟨hnonneg, by omega, ?_⟩
      rw [Function.update_of_ne (by omega)]
      exact hcoros
  case made =>
    intro i hi
    by_cases hio : i = o
    · subst hio
      rw [Function.update_self, Function.update_self]
    · rw [Function.update_of_ne hio] at hi ⊢
      have hmade := h.made i hi
      rw [Function.update_of_ne (h.lt_of_live hmade).ne]
      exact hmade
  case live =>
    obtain ⟨live, hinv, hlive⟩ := h.live
    have hstep : (IdUse.mk map live).step .allocate =
        some ⟨map.allocate.2, (o : Int) :: live⟩ := by
      have hne : (o : Int) ≠ -1 := by omega
      simp [IdUse.step, ho, hne]
    refine ⟨_, hinv.allocate hstep, fun id => ?_⟩
    rw [List.mem_cons, hlive]
    constructor
    · rintro (rfl | ⟨p, hp⟩)
      · exact ⟨nextCo, Function.update_self ..⟩
      · refine ⟨p, ?_⟩
        rw [Function.update_of_ne (h.lt_of_live hp).ne]
        exact hp
    · rintro ⟨p, hp⟩
      by_cases hpn : p = nextCo
      · subst hpn
        rw [Function.update_self, Option.some.injEq] at hp
        exact Or.inl hp.symm
      · rw [Function.update_of_ne hpn] at hp
        exact Or.inr ⟨p, hp⟩
  case last =>
    rw [hlast']
    omega

/-- `mainfunc` takes a coroutine out of the table when its function has returned. -/
theorem Table.finish (h : Table coros ids nextCo map) {p : CoPtr} {id : Int}
    (hp : ids p = some id) :
    Table (Function.update coros id.toNat 0) (Function.update ids p none) nextCo
      (map.free id) := by
  have hentry := h.entry p id hp
  constructor
  case pos => exact h.pos
  case null =>
    rw [Function.update_of_ne (h.pos_of_live hp).ne]
    exact h.null
  case fresh =>
    intro q hq
    rw [Function.update_of_ne ((h.lt_of_live hp).trans_le hq).ne']
    exact h.fresh q hq
  case entry =>
    intro q id' hq
    obtain ⟨hqp, hq⟩ := of_update_none hq
    obtain ⟨hnonneg, hle, hcoros⟩ := h.entry q id' hq
    refine ⟨hnonneg, hle, ?_⟩
    have hne : id'.toNat ≠ id.toNat := by
      intro heq
      rw [heq, hentry.2.2] at hcoros
      exact hqp hcoros.symm
    rw [Function.update_of_ne hne]
    exact hcoros
  case made =>
    intro i hi
    by_cases hi' : i = id.toNat
    · subst hi'
      rw [Function.update_self] at hi
      exact absurd rfl hi
    · rw [Function.update_of_ne hi'] at hi ⊢
      have hmade := h.made i hi
      have hne : coros i ≠ p := by
        intro heq
        rw [heq, hp, Option.some.injEq] at hmade
        omega
      rw [Function.update_of_ne hne]
      exact hmade
  case live =>
    obtain ⟨live, hinv, hlive⟩ := h.live
    have hmem : id ∈ live := (hlive id).mpr ⟨p, hp⟩
    have hstep : (IdUse.mk map live).step (.free id) = some ⟨map.free id, live.erase id⟩ :=
      if_pos hmem
    have hnodup : live.Nodup := hinv.cells.of_map
    refine ⟨_, hinv.free hstep, fun id' => ?_⟩
    rw [hnodup.mem_erase_iff, hlive]
    constructor
    · rintro ⟨hne, q, hq⟩
      refine ⟨q, ?_⟩
      have hqp : q ≠ p := by
        rintro rfl
        rw [hp, Option.some.injEq] at hq
        exact hne hq.symm
      rw [Function.update_of_ne hqp]
      exact hq
    · rintro ⟨q, hq⟩
      obtain ⟨hqp, hq⟩ := of_update_none hq
      refine ⟨?_, q, hq⟩
      rintro rfl
      exact hqp (h.inj hq hp)
  case last => exact h.last

end Ids

end Old

end Libcr
