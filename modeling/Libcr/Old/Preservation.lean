import Libcr.Old.Effect

/-!
# The invariant of the old scheduler is kept

A step either moves one coroutine, which gives up control (`Inv.park`) or takes it
(`Inv.grant`), or hands control to `Run` (`Placed.toRun`), or changes the tables around the
coroutines.
-/

namespace Libcr

namespace Old

variable {s t : Sched} {p : CoPtr} {r : Resumer} {co co' : Coroutine}

/-- A wait for a descriptor goes on while a coroutine moves that does not wait for it. -/
theorem FirstWait.update {coroutines : CoPtr → Option Coroutine} {fd : Fd} {mask : BitVec 32}
    (h : FirstWait coroutines fd mask) (hco : coroutines p = some co)
    (hother : ∀ call, co.pc = .waiting call → call.fd ≠ fd) (new : Option Coroutine) :
    FirstWait (Function.update coroutines p new) fd mask := by
  obtain ⟨q, co₁, call, hq, hpc, hfd, hrest⟩ := h
  have hqp : q ≠ p := by
    rintro rfl
    rw [hq, Option.some.injEq] at hco
    exact hother call (hco ▸ hpc) hfd
  refine ⟨q, co₁, call, ?_, hpc, hfd, hrest⟩
  rw [Function.update_of_ne hqp]
  exact hq

/-- The ids do not change when a coroutine moves. -/
theorem idOf_update (hco : s.coroutines p = some co) (hid : co'.id = co.id) :
    (fun q => (Function.update s.coroutines p (some co') q).map Coroutine.id) = s.idOf := by
  funext q
  by_cases hqp : q = p
  · subst hqp
    simp [Sched.idOf, hco, hid]
  · simp [Sched.idOf, hqp]

/-- What is said about a coroutine that moves and about all others. -/
theorem forall_update {P : CoPtr → Coroutine → Prop} (hself : P p co')
    (hothers : ∀ q co₁, q ≠ p → s.coroutines q = some co₁ → P q co₁) (q : CoPtr)
    (co₁ : Coroutine) (hq : Function.update s.coroutines p (some co') q = some co₁) : P q co₁ := by
  by_cases hqp : q = p
  · subst hqp
    rw [Function.update_self, Option.some.injEq] at hq
    exact hq ▸ hself
  · rw [Function.update_of_ne hqp] at hq
    exact hothers q co₁ hqp hq

/-- What an entry of the epoll set has to say. -/
def Registered (s : Sched) (coroutines : CoPtr → Option Coroutine)
    (epoll : Fd → Option (SockPtr × BitVec 32)) : Prop :=
  ∀ fd r, epoll fd = some r → 0 ≤ fd ∧ fd < kCoroNum ∧ s.socks fd.toNat = r.1 ∧ r.1 ≠ 0 ∧
    FirstWait coroutines fd r.2

/-- The one who called `Resume` can be given control. -/
theorem Sched.CanReturn.executing (h : s.CanReturn p r) {q : CoPtr}
    (hq : r.control = .coroutine q) :
    q ≠ p ∧ ∃ co, s.coroutines q = some co ∧ co.Executing := by
  cases r with
  | main => cases hq
  | run i => cases hq
  | coroutine q' =>
      obtain rfl := Control.coroutine.inj hq
      obtain ⟨hne, co, hco, hstatus, hpc⟩ := h
      exact ⟨hne, co, hco, hstatus, Or.inl hpc⟩

theorem Sched.CanReturn.run_le (h : s.CanReturn p r) {i : Nat} (hi : r.control = .run i) :
    i ≤ s.active.length := by
  cases r with
  | main => cases hi
  | coroutine q => cases hi
  | run j =>
      obtain rfl := Control.run.inj hi
      exact h

/-- It can still be given control when other coroutines have moved. -/
theorem Sched.CanReturn.mono (h : s.CanReturn p r)
    (hcos : ∀ q co, q ≠ p → s.coroutines q = some co → t.coroutines q = some co)
    (hactive : s.active.length ≤ t.active.length) : t.CanReturn p r := by
  cases r with
  | main => trivial
  | run i => exact Nat.lt_of_lt_of_le h hactive
  | coroutine q =>
      obtain ⟨hne, co, hco, hrest⟩ := h
      exact ⟨hne, co, hcos q co hne hco, hrest⟩

/-- Nothing changes for the coroutines. -/
theorem Placed.congr (h : Placed s) (hcos : t.coroutines = s.coroutines)
    (hcontrol : t.control = s.control) (hmain : t.main = s.main)
    (hrunning : t.running = s.running) (hactive : s.active.length ≤ t.active.length) :
    Placed t where
  own := hcos ▸ h.own
  places := hcos ▸ h.places
  native := by
    rw [hcos, hcontrol, hmain]
    exact h.native
  executing := by
    rw [hcos, hcontrol]
    exact h.executing
  saved := by
    intro q r hq hr
    obtain ⟨hid, hret⟩ := h.saved q r (hcontrol ▸ hq) (hmain ▸ hr)
    refine ⟨?_, hret.mono (fun _ _ _ hco => hcos ▸ hco) hactive⟩
    rw [Sched.idOf, hcos, hrunning]
    exact hid
  stray := by
    rw [hmain, Sched.Stray, hcos, hrunning]
    exact h.stray
  main := by
    rw [hcontrol, hmain]
    exact h.main
  run := by
    rw [hcontrol]
    exact fun i hi => (h.run i hi).trans hactive

/-- `Run` takes control. -/
theorem Placed.toRun (h : Placed s)
    (hnative : ∀ q co₁ call, s.coroutines q = some co₁ → co₁.pc ≠ .native call)
    (hcos : t.coroutines = s.coroutines) (hmain : t.main = s.main)
    (hrunning : t.running = s.running) {i : Nat} (hcontrol : t.control = .run i)
    (hle : i ≤ t.active.length) : Placed t where
  own := hcos ▸ h.own
  places := hcos ▸ h.places
  native := by
    rw [hcos]
    exact fun q co₁ call hq hpc => absurd hpc (hnative q co₁ call hq)
  executing := by simp [hcontrol]
  saved := by simp [hcontrol]
  stray := by
    rw [hmain, Sched.Stray, hcos, hrunning]
    exact h.stray
  main := by simp [hcontrol]
  run := by
    rw [hcontrol]
    rintro j hj
    obtain rfl := Control.run.inj hj
    exact hle

namespace Inv

/-- Only the coroutine that has control is in the loop of a call. -/
theorem not_native (h : Inv s) (hctl : s.control = .coroutine p) (q : CoPtr)
    (co₁ : Coroutine) (call : IoCall) (hqp : q ≠ p) (hq : s.coroutines q = some co₁) :
    co₁.pc ≠ .native call := by
  intro hpc
  have hcontrol := (h.placed.native q co₁ call hq hpc).1
  rw [hctl, Control.coroutine.injEq] at hcontrol
  exact hqp hcontrol.symm

theorem not_native_of_run (h : Inv s) {i : Nat} (hctl : s.control = .run i) (q : CoPtr)
    (co₁ : Coroutine) (call : IoCall) (hq : s.coroutines q = some co₁) :
    co₁.pc ≠ .native call := by
  intro hpc
  cases hctl.symm.trans (h.placed.native q co₁ call hq hpc).1

theorem not_native_of_user (h : Inv s) (huser : s.inUser = true) (q : CoPtr) (co₁ : Coroutine)
    (call : IoCall) (hq : s.coroutines q = some co₁) : co₁.pc ≠ .native call := by
  intro hpc
  have hcontrol := (h.placed.native q co₁ call hq hpc).1
  rw [Sched.inUser, hcontrol] at huser
  simp [hq, hpc] at huser

theorem not_native_of_resumes (h : Inv s) {a : Act} {os : List Obs} (hres : Resumes s a p r os)
    (q : CoPtr) (co₁ : Coroutine) (call : IoCall) (hq : s.coroutines q = some co₁) :
    co₁.pc ≠ .native call := by
  cases hres with
  | run hctl _ => exact h.not_native_of_run hctl q co₁ call hq
  | user huser _ => exact h.not_native_of_user huser q co₁ call hq

/-- The one who calls `Resume` for a coroutine that is not in its function is not that
coroutine. -/
theorem canReturn (h : Inv s) {a : Act} {os : List Obs} (hres : Resumes s a p r os)
    (hco : s.coroutines p = some co) (hpc : co.pc ≠ .user) : s.CanReturn p r := by
  cases hres with
  | run hctl hat => exact (List.getElem?_eq_some_iff.mp hat).1
  | user huser _ =>
      rcases h.user_cases huser with ⟨hctl, -⟩ | ⟨q, co₁, hctl, hq, hstatus, hpc'⟩
      · rw [Sched.user, hctl]
        trivial
      · rw [Sched.user, hctl]
        refine ⟨?_, co₁, hq, hstatus, hpc'⟩
        rintro rfl
        obtain rfl := Option.some.inj (hq.symm.trans hco)
        exact hpc hpc'

/-- The entries of the epoll set stay while a coroutine moves that does not wait. -/
theorem registered_update (h : Inv s) (hco : s.coroutines p = some co)
    (hpc : ∀ call, co.pc ≠ .waiting call) (new : Option Coroutine) :
    Registered s (Function.update s.coroutines p new) s.epoll := by
  intro fd r hr
  obtain ⟨hnonneg, hlt, hsocks, hne, hwait⟩ := h.nets.registered fd r hr
  exact ⟨hnonneg, hlt, hsocks, hne,
    hwait.update hco (fun call hcall => absurd hcall (hpc call)) new⟩

/-- The entries of the epoll set for other descriptors stay while a coroutine that waits
moves. -/
theorem registered_wake (h : Inv s) (hco : s.coroutines p = some co) {call : IoCall}
    (hpc : co.pc = .waiting call) (new : Option Coroutine) :
    Registered s (Function.update s.coroutines p new)
      (Function.update s.epoll call.fd none) := by
  intro fd r hr
  obtain ⟨hfd, hr⟩ := of_update_none hr
  obtain ⟨hnonneg, hlt, hsocks, hne, hwait⟩ := h.nets.registered fd r hr
  refine ⟨hnonneg, hlt, hsocks, hne, hwait.update hco ?_ new⟩
  intro call' hcall'
  rw [hpc, Pc.waiting.injEq] at hcall'
  exact hcall' ▸ hfd.symm

/-- The invariant does not depend on what was recorded. -/
theorem emit (h : Inv s) (os : List Obs) : Inv (s.emit os) :=
  ⟨h.table, h.placed.congr rfl rfl rfl rfl le_rfl, ⟨h.nets.pos, h.nets.null, h.nets.fresh,
    h.nets.socks, h.nets.coro, h.nets.registered, h.nets.orphans⟩, h.active⟩

/-- A fault changes nothing else. -/
theorem faulted (h : Inv s) (f : Fault) : Inv { s with fault := some f } :=
  ⟨h.table, h.placed.congr rfl rfl rfl rfl le_rfl, ⟨h.nets.pos, h.nets.null, h.nets.fresh,
    h.nets.socks, h.nets.coro, h.nets.registered, h.nets.orphans⟩, h.active⟩

/-- `Run` takes control. -/
theorem toRun (h : Inv s)
    (hnative : ∀ q co₁ call, s.coroutines q = some co₁ → co₁.pc ≠ .native call) {i : Nat}
    (hle : i ≤ s.active.length) : Inv { s with control := .run i } :=
  ⟨h.table, h.placed.toRun hnative rfl rfl rfl rfl hle, ⟨h.nets.pos, h.nets.null, h.nets.fresh,
    h.nets.socks, h.nets.coro, h.nets.registered, h.nets.orphans⟩, h.active⟩

/-- A coroutine gives up control. -/
theorem park (h : Inv s) (hctl : s.control = .coroutine p) (hmain : s.main = some r)
    (hco : s.coroutines p = some co) (hown : co'.Own p) (hid : co'.id = co.id)
    (hrest : co'.Resting) {running : Int}
    (hstray : running = -1 ∨ running = co.id ∧ ∃ call, co'.pc = .waiting call)
    {epoll : Fd → Option (SockPtr × BitVec 32)}
    (hepoll : Registered s (Function.update s.coroutines p (some co')) epoll)
    (log : List Obs) :
    Inv { s with
      coroutines := Function.update s.coroutines p (some co')
      main := none
      control := r.control
      running := running
      epoll := epoll
      log := log } where
  table := by
    change Table s.coros (fun q => (Function.update s.coroutines p (some co') q).map _) _ _
    rw [idOf_update hco hid]
    exact h.table
  placed :=
    { own := forall_update hown fun q co₁ _ hq => h.placed.own q co₁ hq
      places := forall_update (P := fun _ co₁ => co₁.Resting ∨ co₁.Executing) (Or.inl hrest)
        fun q co₁ _ hq => h.placed.places q co₁ hq
      native := by
        intro q co₁ call hq hpc
        refine absurd hpc (forall_update (P := fun _ co₁ => co₁.pc ≠ .native call) ?_ ?_ q co₁ hq)
        · intro hpc
          rcases hrest with ⟨-, hrest⟩ | ⟨-, hrest | ⟨call', hrest⟩⟩ <;> cases hpc.symm.trans hrest
        · exact fun q co₁ hqp hq => h.not_native hctl q co₁ call hqp hq
      executing := by
        intro q hq
        obtain ⟨hqp, co₁, hco₁, hexec⟩ :=
          (h.placed.saved p r hctl hmain).2.executing hq
        exact ⟨co₁, (Function.update_of_ne hqp ..).trans hco₁, hexec⟩
      saved := by simp
      stray := by
        rintro -
        rcases hstray with hnone | ⟨hrunning, call, hpc⟩
        · exact Or.inl hnone
        · exact Or.inr ⟨p, co', call, Function.update_self .., hpc, hrunning.trans hid.symm⟩
      main := fun _ => rfl
      run := fun i hi => (h.placed.saved p r hctl hmain).2.run_le hi }
  nets :=
    { pos := h.nets.pos
      null := h.nets.null
      fresh := h.nets.fresh
      socks := h.nets.socks
      coro := h.nets.coro
      registered := hepoll
      orphans := h.nets.orphans }
  active := h.active

/-- A coroutine takes control, or keeps it. -/
theorem grant (h : Inv s)
    (hnative : ∀ q co₁ call, q ≠ p → s.coroutines q = some co₁ → co₁.pc ≠ .native call)
    (hco : s.coroutines p = some co) (hown : co'.Own p) (hid : co'.id = co.id)
    (hexec : co'.Executing) (hret : s.CanReturn p r) {control : Control}
    (hcontrol : control = .coroutine p) {main : Option Resumer} (hmain : main = some r)
    {running : Int} (hrunning : running = co.id)
    {epoll : Fd → Option (SockPtr × BitVec 32)}
    (hepoll : Registered s (Function.update s.coroutines p (some co')) epoll)
    (log : List Obs) :
    Inv { s with
      coroutines := Function.update s.coroutines p (some co')
      main := main
      control := control
      running := running
      epoll := epoll
      log := log } where
  table := by
    change Table s.coros (fun q => (Function.update s.coroutines p (some co') q).map _) _ _
    rw [idOf_update hco hid]
    exact h.table
  placed :=
    { own := forall_update hown fun q co₁ _ hq => h.placed.own q co₁ hq
      places := forall_update (P := fun _ co₁ => co₁.Resting ∨ co₁.Executing) (Or.inr hexec)
        fun q co₁ _ hq => h.placed.places q co₁ hq
      native := by
        intro q co₁ call hq hpc
        by_cases hqp : q = p
        · subst hqp
          exact ⟨hcontrol, hmain ▸ rfl⟩
        · have hq' : s.coroutines q = some co₁ := (Function.update_of_ne hqp ..).symm.trans hq
          exact absurd hpc (hnative q co₁ call hqp hq')
      executing := by
        intro q hq
        obtain rfl := Control.coroutine.inj (hcontrol.symm.trans hq)
        exact ⟨co', Function.update_self .., hexec⟩
      saved := by
        intro q r' hq hr
        obtain rfl := Control.coroutine.inj (hcontrol.symm.trans hq)
        obtain rfl := Option.some.inj (hmain.symm.trans hr)
        refine ⟨?_, hret.mono (fun q co₁ hqp hq => (Function.update_of_ne hqp ..).trans hq) le_rfl⟩
        rw [hrunning, ← hid]
        exact Sched.idOf_eq _ (Function.update_self ..)
      stray := by simp [hmain]
      main := by simp [hcontrol]
      run := by simp [hcontrol] }
  nets :=
    { pos := h.nets.pos
      null := h.nets.null
      fresh := h.nets.fresh
      socks := h.nets.socks
      coro := h.nets.coro
      registered := hepoll
      orphans := h.nets.orphans }
  active := h.active

theorem spawned (h : Inv s) {arg fn id : Nat} (hid : s.idMap.allocate.1 = id)
    (hlt : id < kCoroNum) : Inv (s.spawned arg fn id) := by
  have hnew : s.coroutines s.nextCo = none := by
    have := h.table.fresh s.nextCo le_rfl
    rwa [Sched.idOf, Option.map_eq_none_iff] at this
  have hne : ∀ q co₁, s.coroutines q = some co₁ → q ≠ s.nextCo := by
    rintro q co₁ hq rfl
    cases hnew.symm.trans hq
  have hkept : ∀ q co₁, s.coroutines q = some co₁ →
      (s.spawned arg fn id).coroutines q = some co₁ :=
    fun q co₁ hq => (Function.update_of_ne (hne q co₁ hq) ..).trans hq
  have hactive : s.active.length ≤ (s.spawned arg fn id).active.length := by
    simp [Sched.spawned]
  constructor
  case table =>
    have hids : (s.spawned arg fn id).idOf = Function.update s.idOf s.nextCo (some (id : Int)) := by
      funext q
      by_cases hq : q = s.nextCo
      · subst hq
        simp [Sched.idOf, Sched.spawned]
      · simp [Sched.idOf, Sched.spawned, hq]
    rw [hids]
    exact h.table.spawn hid hlt
  case placed =>
    constructor
    case own =>
      apply forall_update
      · exact ⟨fun hpc => absurd rfl hpc, by simp [Pc.call?], by simp⟩
      · exact fun q co₁ _ hq => h.placed.own q co₁ hq
    case places =>
      apply forall_update (P := fun _ co₁ => co₁.Resting ∨ co₁.Executing)
      · exact Or.inl (Or.inl ⟨rfl, rfl⟩)
      · exact fun q co₁ _ hq => h.placed.places q co₁ hq
    case native =>
      intro q co₁ call hq
      apply forall_update (s := s) (P := fun q co₁ => co₁.pc = .native call →
        s.control = .coroutine q ∧ s.main.isSome = true) _ _ q co₁ hq
      · simp
      · exact fun q co₁ _ hq => h.placed.native q co₁ call hq
    case executing =>
      intro q hq
      obtain ⟨co₁, hco₁, hexec⟩ := h.placed.executing q hq
      exact ⟨co₁, hkept q co₁ hco₁, hexec⟩
    case saved =>
      intro q r hq hr
      obtain ⟨co₁, hco₁, -⟩ := h.placed.executing q hq
      obtain ⟨hid', hret⟩ := h.placed.saved q r hq hr
      refine ⟨?_, hret.mono (fun q co₁ _ hq => hkept q co₁ hq) hactive⟩
      rw [Sched.idOf, hkept q co₁ hco₁, ← hco₁]
      exact hid'
    case stray =>
      intro hnone
      rcases h.placed.stray hnone with hstray | ⟨q, co₁, call, hq, hwait⟩
      · exact Or.inl hstray
      · exact Or.inr ⟨q, co₁, call, hkept q co₁ hq, hwait⟩
    case main => exact h.placed.main
    case run => exact fun i hi => (h.placed.run i hi).trans hactive
  case nets =>
    constructor
    case pos => exact h.nets.pos
    case null => exact h.nets.null
    case fresh => exact h.nets.fresh
    case socks => exact h.nets.socks
    case coro =>
      intro k sock hk
      obtain ⟨hpos, hlt⟩ := h.nets.coro k sock hk
      exact ⟨hpos, Nat.lt_succ_of_lt hlt⟩
    case registered =>
      intro fd r hr
      obtain ⟨hnonneg, hfd, hsocks, hne, q, co₁, call, hq, hwait⟩ := h.nets.registered fd r hr
      exact ⟨hnonneg, hfd, hsocks, hne, q, co₁, call, hkept q co₁ hq, hwait⟩
    case orphans => exact h.nets.orphans
  case active =>
    intro q
    change q ∈ s.active ++ [s.nextCo] ↔ 0 < q ∧ q < s.nextCo + 1
    rw [List.mem_append, List.mem_singleton, h.active, Nat.lt_succ_iff_lt_or_eq]
    constructor
    · rintro (⟨hpos, hlt⟩ | rfl)
      · exact ⟨hpos, Or.inl hlt⟩
      · exact ⟨h.table.pos, Or.inr rfl⟩
    · rintro ⟨hpos, hlt | rfl⟩
      · exact Or.inl ⟨hpos, hlt⟩
      · exact Or.inr rfl

/-- The first use of a descriptor makes its `Socket`. -/
theorem equipped (h : Inv s) (hco : s.coroutines p = some co) (kind : IoKind) {fd : Fd}
    (hfd : 0 ≤ fd) (len : BitVec 64) :
    Inv (s.equipped p kind fd len).1 ∧
      (s.equipped p kind fd len).1.socks fd.toNat = (s.equipped p kind fd len).2 ∧
      (s.equipped p kind fd len).2 ≠ 0 := by
  by_cases hk : s.socks fd.toNat = 0
  · have hequipped : s.equipped p kind fd len =
        ({ s with
          log := s.log ++ [.entered s.caller kind len]
          nextSock := s.nextSock + 1
          sockets := Function.update s.sockets s.nextSock (some { fd := fd, coro := p })
          socks := Function.update s.socks fd.toNat s.nextSock }, s.nextSock) := by
      simp [Sched.equipped, Sched.sockFor, hk, Sched.emit]
    rw [hequipped]
    refine ⟨⟨h.table, h.placed.congr rfl rfl rfl rfl le_rfl, ?_, h.active⟩,
      Function.update_self .., h.nets.pos.ne'⟩
    constructor
    case pos => exact Nat.succ_pos _
    case null =>
      dsimp only
      rw [Function.update_of_ne h.nets.pos.ne]
      exact h.nets.null
    case fresh =>
      intro k hle
      dsimp only
      rw [Function.update_of_ne (Nat.lt_of_succ_le hle).ne']
      exact h.nets.fresh k (Nat.le_of_succ_le hle)
    case socks =>
      intro j hj
      dsimp only at hj ⊢
      by_cases hjf : j = fd.toNat
      · subst hjf
        rw [Function.update_self, Function.update_self]
        exact ⟨_, rfl, (Int.toNat_of_nonneg hfd).symm⟩
      · rw [Function.update_of_ne hjf] at hj ⊢
        obtain ⟨sock, hsock, heq⟩ := h.nets.socks j hj
        have hne : s.socks j ≠ s.nextSock := by
          intro hnext
          rw [hnext, h.nets.fresh _ le_rfl] at hsock
          cases hsock
        rw [Function.update_of_ne hne]
        exact ⟨sock, hsock, heq⟩
    case coro =>
      intro k sock hsock
      dsimp only at hsock
      by_cases hkn : k = s.nextSock
      · subst hkn
        rw [Function.update_self, Option.some.injEq] at hsock
        subst hsock
        have hid := s.idOf_eq hco
        exact ⟨h.table.pos_of_live hid, h.table.lt_of_live hid⟩
      · rw [Function.update_of_ne hkn] at hsock
        exact h.nets.coro k sock hsock
    case registered =>
      intro fd' r hr
      obtain ⟨hnonneg, hlt, hsocks, hne, hwait⟩ := h.nets.registered fd' r hr
      refine ⟨hnonneg, hlt, ?_, hne, hwait⟩
      have hfd' : fd'.toNat ≠ fd.toNat := by
        intro heq
        rw [heq, hk] at hsocks
        exact hne hsocks.symm
      dsimp only
      rw [Function.update_of_ne hfd']
      exact hsocks
    case orphans =>
      intro k hk
      obtain ⟨hlt, hnone⟩ := h.nets.orphans k hk
      exact ⟨Nat.lt_succ_of_lt hlt, (Function.update_of_ne hlt.ne ..).trans hnone⟩
  · have hequipped : s.equipped p kind fd len =
        (s.emit [.entered s.caller kind len], s.socks fd.toNat) := by
      simp [Sched.equipped, Sched.sockFor, hk, Sched.emit]
    rw [hequipped]
    exact ⟨h.emit _, rfl, hk⟩

/-- A coroutine goes on in `Accept`, `Recv` or `Send`. -/
theorem gone (h : Inv s) (hctl : s.control = .coroutine p) (hmain : s.main = some r)
    (hco : s.coroutines p = some co) (hpc : co.pc ≠ .entry)
    (hpc' : ∀ call, co.pc ≠ .waiting call) {next : IoNext} (hnext : next.call.coro = p)
    (hloop : ∀ call, next = .loop call → call.head = .loop call) :
    Inv (s.gone p r co next) := by
  obtain ⟨co₁, hco₁, hexec⟩ := h.placed.executing p hctl
  obtain rfl : co₁ = co := Option.some.inj (hco₁.symm.trans hco)
  have hlocals := (h.placed.own p co₁ hco).locals hpc
  have hrunning := h.running_eq hctl hmain hco
  have hret := (h.placed.saved p r hctl hmain).2
  cases next with
  | wait call =>
      have hown : Coroutine.Own p { co₁ with status := .suspend, pc := .waiting call } :=
        ⟨fun _ => hlocals, fun call' hcall => Option.some.inj hcall ▸ hnext, by simp⟩
      exact h.park hctl hmain hco hown rfl (Or.inr ⟨rfl, Or.inr ⟨call, rfl⟩⟩)
        (Or.inr ⟨hrunning, call, rfl⟩) (h.registered_update hco hpc' _) _
  | loop call =>
      have hown : Coroutine.Own p { co₁ with pc := .native call } :=
        ⟨fun _ => hlocals, fun call' hcall => Option.some.inj hcall ▸ hnext,
          fun call' hcall => Pc.native.inj hcall ▸ hloop call rfl⟩
      exact h.grant (h.not_native hctl) hco hown rfl ⟨hexec.1, Or.inr ⟨call, rfl⟩⟩ hret hctl hmain
        hrunning (h.registered_update hco hpc' _) s.log
  | back call value =>
      have hown : Coroutine.Own p { co₁ with pc := .user } :=
        ⟨fun _ => hlocals, by simp [Pc.call?], by simp⟩
      exact h.grant (h.not_native hctl) hco hown rfl ⟨hexec.1, Or.inl rfl⟩ hret hctl hmain
        hrunning (h.registered_update hco hpc' _)
        (s.log ++ [.returned p call.kind call.len value])

/-- A coroutine adds a descriptor to the epoll set and waits. -/
theorem startedIo (h : Inv s) (hctl : s.control = .coroutine p) (hmain : s.main = some r)
    (hco : s.coroutines p = some co) (hpc : co.pc = .user) (kind : IoKind) {fd : Fd}
    (hfd : 0 ≤ fd ∧ fd < kCoroNum) (len : BitVec 64) :
    Inv (s.startedIo p r co kind fd len) := by
  obtain ⟨hequip, hsocks, hne⟩ := h.equipped hco kind hfd.1 len
  have hsame := s.equipped_same p kind fd len
  have hctl' : (s.equipped p kind fd len).1.control = .coroutine p := hsame.control.trans hctl
  have hmain' : (s.equipped p kind fd len).1.main = some r := hsame.main.trans hmain
  have hco' : (s.equipped p kind fd len).1.coroutines p = some co :=
    (congrFun hsame.coroutines p).trans hco
  let call : IoCall := { kind := kind, coro := p, fd := fd, len := len, ret := 0, retries := 0 }
  have hown : Coroutine.Own p { co with status := .suspend, pc := .waiting call } := by
    refine ⟨fun _ => (h.placed.own p co hco).locals (by rw [hpc]; decide), ?_, by simp⟩
    intro call' hcall
    obtain rfl := Option.some.inj hcall
    rfl
  refine hequip.park hctl' hmain' hco' hown rfl (Or.inr ⟨rfl, Or.inr ⟨call, rfl⟩⟩)
    (Or.inr ⟨hequip.running_eq hctl' hmain' hco', call, rfl⟩) ?_ _
  intro fd' reg hreg
  change Function.update (s.equipped p kind fd len).1.epoll fd
    (some ((s.equipped p kind fd len).2, kind.mask)) fd' = some reg at hreg
  by_cases hfd' : fd' = fd
  · subst hfd'
    rw [Function.update_self, Option.some.injEq] at hreg
    subst hreg
    exact ⟨hfd.1, hfd.2, hsocks, hne, p, _, call, Function.update_self .., rfl, rfl, rfl, rfl⟩
  · rw [Function.update_of_ne hfd'] at hreg
    exact hequip.registered_update hco' (by simp [hpc]) _ fd' reg hreg

theorem closed (h : Inv s) {fd : Fd} (hfd : 0 ≤ fd) (dup : Bool) : Inv (s.closed fd dup) := by
  refine ⟨h.table, h.placed.congr rfl rfl rfl rfl le_rfl, ?_, h.active⟩
  have hsockets : ∀ k sock, (s.closed fd dup).sockets k = some sock → s.sockets k = some sock :=
    fun k sock hk => (of_update_none hk).2
  have hnone : ∀ k, s.sockets k = none → (s.closed fd dup).sockets k = none := by
    intro k hk
    by_contra hne
    obtain ⟨sock, hsock⟩ := Option.ne_none_iff_exists'.mp hne
    rw [hsockets k sock hsock] at hk
    cases hk
  constructor
  case pos => exact h.nets.pos
  case null => exact hnone 0 h.nets.null
  case fresh => exact fun k hk => hnone k (h.nets.fresh k hk)
  case socks =>
    intro j hj
    by_cases hjf : j = fd.toNat
    · subst hjf
      exact absurd (Function.update_self ..) hj
    · have hsame : (s.closed fd dup).socks j = s.socks j := Function.update_of_ne hjf ..
      rw [hsame] at hj ⊢
      obtain ⟨sock, hsock, heq⟩ := h.nets.socks j hj
      -- The `Socket` of another descriptor is another one.
      have hne : s.socks j ≠ s.socks fd.toNat := by
        intro hk
        obtain ⟨sock', hsock', heq'⟩ := h.nets.socks fd.toNat (hk ▸ hj)
        rw [← hk, hsock, Option.some.injEq] at hsock'
        subst hsock'
        exact hjf (Int.natCast_inj.mp (heq.symm.trans heq'))
      exact ⟨sock, (Function.update_of_ne hne ..).trans hsock, heq⟩
  case coro => exact fun k sock hk => h.nets.coro k sock (hsockets k sock hk)
  case registered =>
    intro fd' reg hreg
    obtain ⟨hfd', hreg⟩ := of_update_none hreg
    obtain ⟨hnonneg, hlt, hsocks, hne, hwait⟩ := h.nets.registered fd' reg hreg
    have htoNat : fd'.toNat ≠ fd.toNat := by
      intro heq
      apply hfd'
      calc fd' = (fd'.toNat : Int) := (Int.toNat_of_nonneg hnonneg).symm
        _ = fd.toNat := by rw [heq]
        _ = fd := Int.toNat_of_nonneg hfd
    exact ⟨hnonneg, hlt, (Function.update_of_ne htoNat ..).trans hsocks, hne, hwait⟩
  case orphans =>
    have hold : ∀ k ∈ s.orphans, k < s.nextSock ∧ (s.closed fd dup).sockets k = none :=
      fun k hk => (h.nets.orphans k hk).imp_right (hnone k)
    -- The entry of the descriptor loses the `Socket` that is deleted.
    have hlost : ∀ k, (s.epoll fd).map Prod.fst = some k →
        k < s.nextSock ∧ (s.closed fd dup).sockets k = none := by
      intro k hk
      obtain ⟨reg, hreg, rfl⟩ := Option.map_eq_some_iff.mp hk
      obtain ⟨-, -, hsocks, hne, -⟩ := h.nets.registered fd reg hreg
      obtain ⟨sock, hsock, -⟩ := h.nets.socks fd.toNat (by rw [hsocks]; exact hne)
      rw [← hsocks]
      refine ⟨?_, Function.update_self ..⟩
      by_contra hge
      cases (h.nets.fresh _ (Nat.le_of_not_lt hge)).symm.trans hsock
    intro k hk
    change k ∈ (if dup then s.orphans ++ ((s.epoll fd).map Prod.fst).toList else s.orphans) at hk
    split at hk
    · rw [List.mem_append, Option.mem_toList] at hk
      exact hk.elim (hold k) (hlost k)
    · exact hold k hk

theorem ended (h : Inv s) (hctl : s.control = .coroutine p) (hmain : s.main = some r)
    (hco : s.coroutines p = some co) (hpc : co.pc = .user) : Inv (s.ended p co r) := by
  have hother : ∀ q co₁, (s.ended p co r).coroutines q = some co₁ →
      q ≠ p ∧ s.coroutines q = some co₁ := fun q co₁ hq => of_update_none hq
  have hret := (h.placed.saved p r hctl hmain).2
  constructor
  case table =>
    have hids : (s.ended p co r).idOf = Function.update s.idOf p none := by
      funext q
      by_cases hqp : q = p
      · subst hqp
        simp [Sched.idOf, Sched.ended]
      · simp [Sched.idOf, Sched.ended, hqp]
    rw [hids]
    exact h.table.finish (s.idOf_eq hco)
  case placed =>
    constructor
    case own => exact fun q co₁ hq => h.placed.own q co₁ (hother q co₁ hq).2
    case places => exact fun q co₁ hq => h.placed.places q co₁ (hother q co₁ hq).2
    case native =>
      intro q co₁ call hq hpc'
      obtain ⟨hqp, hq⟩ := hother q co₁ hq
      exact absurd hpc' (h.not_native hctl q co₁ call hqp hq)
    case executing =>
      intro q hq
      obtain ⟨hqp, co₁, hco₁, hexec⟩ := hret.executing hq
      exact ⟨co₁, (Function.update_of_ne hqp ..).trans hco₁, hexec⟩
    case saved => simp [Sched.ended]
    case stray => exact fun _ => Or.inl rfl
    case main => exact fun _ => rfl
    case run => exact fun i hi => hret.run_le hi
  case nets =>
    exact ⟨h.nets.pos, h.nets.null, h.nets.fresh, h.nets.socks, h.nets.coro,
      h.registered_update hco (by simp [hpc]) none, h.nets.orphans⟩
  case active => exact h.active

/-- `CheckNetwork` puts coroutines on the list that have been on it before. -/
theorem mem_active_of_mem_pushes (h : Inv s) {events : List (Watch × BitVec 32)} {q : CoPtr}
    (hq : q ∈ s.pushes events) : q ∈ s.active := by
  obtain ⟨e, -, he⟩ := List.mem_filterMap.mp hq
  obtain ⟨k, -, hk⟩ := Option.bind_eq_some_iff.mp he
  rw [Sched.pushOf, Option.ite_none_left_eq_some] at hk
  obtain ⟨sock, hsock, rfl⟩ := Option.map_eq_some_iff.mp hk.2
  exact (h.active _).mpr (h.nets.coro k sock hsock)

theorem networked (h : Inv s) (hctl : s.control = .run s.active.length)
    (events : List (Watch × BitVec 32)) : Inv (s.networked events) := by
  refine ⟨h.table, h.placed.toRun (h.not_native_of_run hctl) rfl rfl rfl rfl (Nat.zero_le _),
    ⟨h.nets.pos, h.nets.null, h.nets.fresh, h.nets.socks, h.nets.coro, h.nets.registered,
      h.nets.orphans⟩, ?_⟩
  intro q
  change q ∈ s.active ++ s.pushes events ↔ _
  rw [List.mem_append, or_iff_left_of_imp h.mem_active_of_mem_pushes, h.active]
  rfl

/-- A coroutine is resumed. -/
theorem resumed (h : Inv s) {a : Act} {os : List Obs} (hres : Resumes s a p r os)
    (hco : s.coroutines p = some co) (hpc : co.pc ≠ .user) (hown : co'.Own p)
    (hid : co'.id = co.id) (hexec : co'.Executing)
    {epoll : Fd → Option (SockPtr × BitVec 32)}
    (hepoll : Registered s (Function.update s.coroutines p (some co')) epoll)
    (log : List Obs) :
    Inv { ((s.emit os).resumed p co r).setCo p (some co') with epoll := epoll, log := log } := by
  have hgrant := h.grant (fun q co₁ call _ hq => h.not_native_of_resumes hres q co₁ call hq) hco
    hown hid hexec (h.canReturn hres hco hpc) rfl rfl rfl hepoll log
  simpa only [Sched.resumed, Sched.setCo, Sched.emit, Function.update_idem] using hgrant

/-- `Resume` returns at once. -/
theorem idle (h : Inv s) {a : Act} {os : List Obs} (hres : Resumes s a p r os) :
    Inv { s.emit os with control := r.control } := by
  have hemit := h.emit os
  cases hres with
  | run hctl hat =>
      exact hemit.toRun (h.not_native_of_run hctl) (List.getElem?_eq_some_iff.mp hat).1
  | user huser _ =>
      rw [user_control huser]
      exact hemit

/-- An entry without descriptor leaves the epoll set. -/
theorem forget (h : Inv s) (k : SockPtr) : Inv { s with orphans := s.orphans.erase k } :=
  ⟨h.table, h.placed.congr rfl rfl rfl rfl le_rfl, ⟨h.nets.pos, h.nets.null, h.nets.fresh,
    h.nets.socks, h.nets.coro, h.nets.registered,
    fun j hj => h.nets.orphans j (List.mem_of_mem_erase hj)⟩, h.active⟩

end Inv

/-- Every step keeps the invariant. -/
theorem Effect.inv (h : Inv s) {a : Act} {t : Sched} (he : Effect s a (.ok t)) : Inv t := by
  cases he with
  | spawn huser hid hlt => exact h.spawned hid hlt
  | @yield p r co hctl hmain hco hpc =>
      have hown : Coroutine.Own p { co with status := .suspend, pc := .yielded } :=
        ⟨fun _ => (h.placed.own p co hco).locals (by rw [hpc]; decide), by simp [Pc.call?],
          by simp⟩
      exact h.park hctl hmain hco hown rfl (Or.inr ⟨rfl, Or.inl rfl⟩) (Or.inl rfl)
        (h.registered_update hco (by simp [hpc]) _) _
  | status => exact h
  | @ioFailed coro co kind fd len ctl huser hrunning hco hfd hfail =>
      exact (h.equipped hco kind hfd.1 len).1.emit _
  | @ioWait p r co kind fd len hctl hmain hco hpc hfd hnew =>
      exact h.startedIo hctl hmain hco hpc kind hfd len
  | @turn p r co call ans hctl hmain hco hpc hfits =>
      obtain ⟨ret, retries, hcall⟩ := call.turn_call ans
      have hnext : (call.turn ans).2.call.coro = p := by
        rw [hcall]
        exact (h.placed.own p co hco).call call (by rw [hpc]; rfl)
      have hemit : Inv (s.emit (call.turn ans).1) := h.emit _
      exact hemit.gone hctl hmain hco (by simp [hpc]) (by simp [hpc]) hnext
        fun call' => call.turn_loop ans
  | @close fd dup huser hfd => exact h.closed hfd.1 dup
  | @ret p r co hctl hmain hco hpc => exact h.ended hctl hmain hco hpc
  | run huser => exact (h.toRun (h.not_native_of_user huser) (Nat.zero_le _)).emit _
  | resumeNull => exact h
  | idle hres hco hexec => exact h.idle hres
  | @enter a p r os co hres hco hpc =>
      have hown : Coroutine.Own p
          { co with status := .running, locals := some (co.id, p), pc := .user } :=
        ⟨fun _ => rfl, by simp [Pc.call?], by simp⟩
      exact h.resumed hres hco (by simp [hpc]) hown rfl ⟨rfl, Or.inl rfl⟩
        (h.registered_update hco (by simp [hpc]) _) _
  | @rejoin a p r os co hres hco hpc =>
      have hown : Coroutine.Own p { co with status := .running, pc := .user } :=
        ⟨fun _ => (h.placed.own p co hco).locals (by rw [hpc]; decide), by simp [Pc.call?],
          by simp⟩
      exact h.resumed hres hco (by simp [hpc]) hown rfl ⟨rfl, Or.inl rfl⟩
        (h.registered_update hco (by simp [hpc]) _) _
  | @wake a p r os co call hres hco hpc =>
      have howner := h.placed.own p co hco
      have hlocals : co.locals = some (co.id, p) := howner.locals (by rw [hpc]; simp)
      have hcoro : call.coro = p := howner.call call (by rw [hpc]; rfl)
      rcases call.head_cases with hhead | hhead
      all_goals rw [hhead]
      · have hown : Coroutine.Own p { co with status := .running, pc := .native call } :=
          ⟨fun _ => hlocals, fun call' hcall => Option.some.inj hcall ▸ hcoro,
            fun call' hcall => Pc.native.inj hcall ▸ hhead⟩
        exact h.resumed hres hco (by simp [hpc]) hown rfl ⟨rfl, Or.inr ⟨call, rfl⟩⟩
          (h.registered_wake hco hpc _) _
      · have hown : Coroutine.Own p { co with status := .running, pc := .user } :=
          ⟨fun _ => hlocals, by simp [Pc.call?], by simp⟩
        exact h.resumed hres hco (by simp [hpc]) hown rfl ⟨rfl, Or.inl rfl⟩
          (h.registered_wake hco hpc _) _
  | @network events hctl hset hfine => exact h.networked hctl events
  | forget => exact h.forget _

/-- A step has an effect: it leaves another state, or a fault is recorded. -/
theorem Inv.step_cases (h : Inv s) {a : Act} {t : Sched} (hstep : s.step a = some t) :
    s.fault = none ∧ (Effect s a (.ok t) ∨
      ∃ f, Effect s a (.error f) ∧ t = { s with fault := some f }) := by
  obtain ⟨hfault, hperform⟩ := Option.ite_none_left_eq_some.mp hstep
  obtain ⟨r, hr, rfl⟩ := Option.map_eq_some_iff.mp hperform
  have heffect := h.effect hr
  refine ⟨Option.not_isSome_iff_eq_none.mp hfault, ?_⟩
  cases r with
  | ok t => exact Or.inl heffect
  | error f => exact Or.inr ⟨f, heffect, rfl⟩

/-- The states of the old scheduler. -/
def Sched.Reached (s : Sched) : Prop := Reaches Sched.step always Sched.new s

/-- The invariant holds in every state. -/
theorem Sched.Reached.inv (h : s.Reached) : Inv s := by
  refine h.invariant inv_new ?_
  intro u a v _ hu _ hstep
  obtain ⟨-, heffect | ⟨f, -, rfl⟩⟩ := hu.step_cases hstep
  · exact heffect.inv hu
  · exact hu.faulted f

end Old

end Libcr
