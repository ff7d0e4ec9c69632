import Libcr.Old.Invariant

/-!
# What a step of the old scheduler can do

Each kind of step in one closed form, under the invariant: the state it leaves, or the
fault it ends in. Everything that is proved about runs is proved by cases on `Effect`.
-/

namespace Libcr

namespace Old

namespace Sched

/-- `Spawn` has made a coroutine with the id `id`. -/
def spawned (s : Sched) (arg fn id : Nat) : Sched :=
  { s with
    idMap := s.idMap.allocate.2
    nextCo := s.nextCo + 1
    coroutines := Function.update s.coroutines s.nextCo (some
      { arg := arg, fn := fn, id := id, status := .ready, locals := none, pc := .entry })
    coros := Function.update s.coros id s.nextCo
    active := s.active ++ [s.nextCo]
    log := s.log ++ [.spawned s.nextCo id] }

/-- The coroutine `p` has switched to `main_`, the context of `r`. -/
def left (s : Sched) (p : CoPtr) (co : Coroutine) (r : Resumer) : Sched :=
  { s with
    coroutines := Function.update s.coroutines p (some co)
    main := none
    control := r.control
    log := s.log ++ [.left p] }

/-- The coroutine `p` has gone on in `Accept`, `Recv` or `Send`; `main_` was the context
of `r`. -/
def gone (s : Sched) (p : CoPtr) (r : Resumer) (co : Coroutine) : IoNext → Sched
  | .wait call => s.left p { co with status := .suspend, pc := .waiting call } r
  | .loop call => s.setCo p (some { co with pc := .native call })
  | .back call value =>
      (s.setCo p (some { co with pc := .user })).emit [.returned p call.kind call.len value]

/-- A call of `Accept`, `Recv` or `Send` has the `Socket` of its descriptor, if need be a new
one for the coroutine `coro`. -/
def equipped (s : Sched) (coro : CoPtr) (kind : IoKind) (fd : Fd) (len : BitVec 64) :
    Sched × SockPtr :=
  (s.emit [.entered s.caller kind len]).sockFor fd coro (s.socks fd.toNat)

/-- The call has added the descriptor to the epoll set. -/
def added (s : Sched) (coro : CoPtr) (kind : IoKind) (fd : Fd) (len : BitVec 64) : Sched :=
  let e := s.equipped coro kind fd len
  { e.1 with epoll := Function.update e.1.epoll fd (some (e.2, kind.mask)) }

/-- The coroutine `p` has added a descriptor to the epoll set and waits. -/
def startedIo (s : Sched) (p : CoPtr) (r : Resumer) (co : Coroutine) (kind : IoKind) (fd : Fd)
    (len : BitVec 64) : Sched :=
  (s.added p kind fd len).gone p r co
    (.wait { kind := kind, coro := p, fd := fd, len := len, ret := 0, retries := 0 })

/-- The function of the coroutine `p` has returned and `p` has been deleted. -/
def ended (s : Sched) (p : CoPtr) (co : Coroutine) (r : Resumer) : Sched :=
  { s with
    idMap := s.idMap.free co.id
    coroutines := Function.update s.coroutines p none
    coros := Function.update s.coros co.id.toNat 0
    num := s.num - 1
    running := -1
    main := none
    control := r.control
    log := s.log ++ [.finished p] }

/-- The coroutine `p` has been resumed by `r`. -/
def resumed (s : Sched) (p : CoPtr) (co : Coroutine) (r : Resumer) : Sched :=
  { s with
    coroutines := Function.update s.coroutines p (some { co with status := .running })
    running := co.id
    main := some r
    control := .coroutine p
    log := s.log ++ [.resumed p] }

/-- The descriptor has been closed, and its `Socket` deleted. -/
def closed (s : Sched) (fd : Fd) (dup : Bool) : Sched :=
  { s with
    sockets := Function.update s.sockets (s.socks fd.toNat) none
    socks := Function.update s.socks fd.toNat 0 }.sysClose fd dup

/-- What `CheckNetwork` puts on `active_` for an event: with the bit of `EPOLLIN`, the
coroutine that used the descriptor first. -/
def pushOf (s : Sched) (k : SockPtr) (events : BitVec 32) : Option CoPtr :=
  if events &&& networkMask = 0 then none else (s.sockets k).map Socket.coro

/-- The deleted `Socket` that `CheckNetwork` follows for an event. -/
def lost (s : Sched) (k : SockPtr) (events : BitVec 32) : Option SockPtr :=
  if events &&& networkMask = 0 ∨ (s.sockets k).isSome = true then none else some k

/-- What `CheckNetwork` puts on `active_`. -/
def pushes (s : Sched) (events : List (Watch × BitVec 32)) : List CoPtr :=
  events.filterMap fun e => (s.watched e.1).bind fun k => s.pushOf k e.2

/-- `CheckNetwork` has returned and `Run` starts over. -/
def networked (s : Sched) (events : List (Watch × BitVec 32)) : Sched :=
  { s with
    control := .run 0
    active := s.active ++ s.pushes events
    log := s.log ++ .waited :: (s.pushes events).map .pushed }

/-- Only `Socket` objects have been made, and the entries `os` recorded. -/
structure SameBut (s t : Sched) (os : List Obs) : Prop where
  coroutines : t.coroutines = s.coroutines
  nextCo : t.nextCo = s.nextCo
  idMap : t.idMap = s.idMap
  control : t.control = s.control
  main : t.main = s.main
  active : t.active = s.active
  epoll : t.epoll = s.epoll
  orphans : t.orphans = s.orphans
  log : t.log = s.log ++ os

theorem equipped_same (s : Sched) (coro : CoPtr) (kind : IoKind) (fd : Fd) (len : BitVec 64) :
    s.SameBut (s.equipped coro kind fd len).1 [.entered s.caller kind len] := by
  unfold equipped sockFor
  split <;> exact ⟨rfl, rfl, rfl, rfl, rfl, rfl, rfl, rfl, rfl⟩

end Sched

/-- The `Socket` that an event makes `CheckNetwork` follow, if the entry has lost it. -/
def strayOf (e : Watch × BitVec 32) : Option SockPtr :=
  match e.1 with
  | .fd _ => none
  | .orphan k => if e.2 &&& networkMask = 0 then none else some k

/-- `Resume` is called for the coroutine `p` by `r`, after the entries `os`. -/
inductive Resumes (s : Sched) : Act → CoPtr → Resumer → List Obs → Prop
  | run {i : Nat} {p : CoPtr} (hctl : s.control = .run i) (hat : s.active[i]? = some p) :
      Resumes s .next p (.run i) [.visited p]
  | user {id : Int} {p : CoPtr} (huser : s.inUser = true) (hid : s.corosAt id = .ok p) :
      Resumes s (.resume id) p s.user []

/-- The steps of the old scheduler. -/
inductive Effect (s : Sched) : Act → Except Fault Sched → Prop
  | spawn {arg fn id : Nat} (huser : s.inUser = true) (hid : s.idMap.allocate.1 = id)
      (hlt : id < kCoroNum) : Effect s (.spawn arg fn) (.ok (s.spawned arg fn id))
  /-- The id is outside of `coros_`. -/
  | overflow {arg fn id : Nat} (huser : s.inUser = true) (hid : s.idMap.allocate.1 = id)
      (hle : kCoroNum ≤ id) : Effect s (.spawn arg fn) (.error (.coros id))
  | yield {p : CoPtr} {r : Resumer} {co : Coroutine} (hctl : s.control = .coroutine p)
      (hmain : s.main = some r) (hco : s.coroutines p = some co) (hpc : co.pc = .user) :
      Effect s .yield (.ok { s.left p { co with status := .suspend, pc := .yielded } r with
        running := -1 })
  /-- `running_` names no coroutine. -/
  | yieldNone (huser : s.inUser = true) (hrunning : s.running = -1) :
      Effect s .yield (.error (.coros (-1)))
  /-- `main_` cannot be switched to. -/
  | yieldLost (huser : s.inUser = true) (hrunning : s.running ≠ -1) (hmain : s.main = none) :
      Effect s .yield (.error .context)
  /-- The id is outside of `coros_`. -/
  | statusOutside {id : Int} (huser : s.inUser = true) (hid : ¬ (0 ≤ id ∧ id < kCoroNum)) :
      Effect s (.status id) (.error (.coros id))
  | status {id : Int} (huser : s.inUser = true) (hid : 0 ≤ id ∧ id < kCoroNum) :
      Effect s (.status id) (.ok s)
  /-- `running_` names no coroutine. -/
  | ioNone {kind : IoKind} {fd : Fd} {len : BitVec 64} {ctl : Option Errno}
      (huser : s.inUser = true) (hrunning : s.running = -1) :
      Effect s (.io kind fd len ctl) (.error (.coros (-1)))
  /-- The descriptor is outside of `socks_`. -/
  | ioOutside {kind : IoKind} {fd : Fd} {len : BitVec 64} {ctl : Option Errno}
      (huser : s.inUser = true) (hrunning : s.running ≠ -1)
      (hfd : ¬ (0 ≤ fd ∧ fd < kCoroNum)) :
      Effect s (.io kind fd len ctl) (.error (.socks fd))
  /-- `epoll_ctl` fails. -/
  | ioFailed {coro : CoPtr} {co : Coroutine} {kind : IoKind} {fd : Fd} {len : BitVec 64}
      {ctl : Option Errno} (huser : s.inUser = true) (hrunning : s.running ≠ -1)
      (hco : s.coroutines coro = some co) (hfd : 0 ≤ fd ∧ fd < kCoroNum)
      (hfail : (s.epoll fd).isSome ∨ ctl.isSome) :
      Effect s (.io kind fd len ctl) (.ok ((s.equipped coro kind fd len).1.emit
        [.returned s.caller kind len (-1)]))
  /-- `main_` cannot be switched to. -/
  | ioLost {kind : IoKind} {fd : Fd} {len : BitVec 64} (huser : s.inUser = true)
      (hrunning : s.running ≠ -1) (hmain : s.main = none) (hfd : 0 ≤ fd ∧ fd < kCoroNum)
      (hnew : s.epoll fd = none) : Effect s (.io kind fd len none) (.error .context)
  | ioWait {p : CoPtr} {r : Resumer} {co : Coroutine} {kind : IoKind} {fd : Fd}
      {len : BitVec 64} (hctl : s.control = .coroutine p) (hmain : s.main = some r)
      (hco : s.coroutines p = some co) (hpc : co.pc = .user) (hfd : 0 ≤ fd ∧ fd < kCoroNum)
      (hnew : s.epoll fd = none) :
      Effect s (.io kind fd len none) (.ok (s.startedIo p r co kind fd len))
  | turn {p : CoPtr} {r : Resumer} {co : Coroutine} {call : IoCall} {ans : Answer}
      (hctl : s.control = .coroutine p) (hmain : s.main = some r)
      (hco : s.coroutines p = some co) (hpc : co.pc = .native call)
      (hfits : ans.fits call = true) :
      Effect s (.native ans) (.ok ((s.emit (call.turn ans).1).gone p r co (call.turn ans).2))
  /-- The descriptor is outside of `socks_`. -/
  | closeOutside {fd : Fd} {dup : Bool} (huser : s.inUser = true)
      (hfd : ¬ (0 ≤ fd ∧ fd < kCoroNum)) : Effect s (.close fd dup) (.error (.socks fd))
  | close {fd : Fd} {dup : Bool} (huser : s.inUser = true) (hfd : 0 ≤ fd ∧ fd < kCoroNum) :
      Effect s (.close fd dup) (.ok (s.closed fd dup))
  | ret {p : CoPtr} {r : Resumer} {co : Coroutine} (hctl : s.control = .coroutine p)
      (hmain : s.main = some r) (hco : s.coroutines p = some co) (hpc : co.pc = .user) :
      Effect s .ret (.ok (s.ended p co r))
  /-- `main_` cannot be switched to. -/
  | retLost {p : CoPtr} (hctl : s.control = .coroutine p) (huser : s.inUser = true)
      (hmain : s.main = none) : Effect s .ret (.error .context)
  | run (huser : s.inUser = true) :
      Effect s .run (.ok ({ s with control := .run 0 }.emit [.started]))
  /-- The coroutine at the iterator has been deleted. -/
  | dangling {i : Nat} {p : CoPtr} (hctl : s.control = .run i) (hat : s.active[i]? = some p)
      (hgone : s.coroutines p = none) : Effect s .next (.error (.coroutine p))
  /-- The id is outside of `coros_`. -/
  | resumeOutside {id : Int} (huser : s.inUser = true) (hid : ¬ (0 ≤ id ∧ id < kCoroNum)) :
      Effect s (.resume id) (.error (.coros id))
  /-- There is no coroutine with the id. -/
  | resumeNull {id : Int} (huser : s.inUser = true) (hid : s.corosAt id = .ok 0) :
      Effect s (.resume id) (.ok s)
  /-- `Resume` returns at once, as the coroutine has been resumed. -/
  | idle {a : Act} {p : CoPtr} {r : Resumer} {os : List Obs} {co : Coroutine}
      (hres : Resumes s a p r os) (hco : s.coroutines p = some co) (hexec : co.Executing) :
      Effect s a (.ok { s.emit os with control := r.control })
  /-- A coroutine is entered. -/
  | enter {a : Act} {p : CoPtr} {r : Resumer} {os : List Obs} {co : Coroutine}
      (hres : Resumes s a p r os) (hco : s.coroutines p = some co) (hpc : co.pc = .entry) :
      Effect s a (.ok ((((s.emit os).resumed p co r).setCo p (some
        { co with status := .running, locals := some (co.id, p), pc := .user })).emit
          [.called p co.fn co.arg]))
  /-- A coroutine comes back from `Yield`. -/
  | rejoin {a : Act} {p : CoPtr} {r : Resumer} {os : List Obs} {co : Coroutine}
      (hres : Resumes s a p r os) (hco : s.coroutines p = some co) (hpc : co.pc = .yielded) :
      Effect s a (.ok (((s.emit os).resumed p co r).setCo p (some
        { co with status := .running, pc := .user })))
  /-- A coroutine goes on in `Accept`, `Recv` or `Send`. -/
  | wake {a : Act} {p : CoPtr} {r : Resumer} {os : List Obs} {co : Coroutine} {call : IoCall}
      (hres : Resumes s a p r os) (hco : s.coroutines p = some co)
      (hpc : co.pc = .waiting call) :
      Effect s a (.ok ({ (s.emit os).resumed p co r with
        epoll := Function.update s.epoll call.fd none }.gone p r
          { co with status := .running } call.head))
  | network {events : List (Watch × BitVec 32)} (hctl : s.control = .run s.active.length)
      (hset : ∀ e ∈ events, (s.watched e.1).isSome) (hfine : events.filterMap strayOf = []) :
      Effect s (.network events) (.ok (s.networked events))
  /-- An event is about an entry that has lost its `Socket`. -/
  | stray {events : List (Watch × BitVec 32)} {k : SockPtr} {rest : List SockPtr}
      (hctl : s.control = .run s.active.length)
      (hset : ∀ e ∈ events, (s.watched e.1).isSome)
      (hstray : events.filterMap strayOf = k :: rest) :
      Effect s (.network events) (.error (.socket k))
  | forget {k : SockPtr} (hk : k ∈ s.orphans) :
      Effect s (.forget k) (.ok { s with orphans := s.orphans.erase k })

namespace Inv

variable {s : Sched}

theorem id_range (h : Inv s) {p : CoPtr} {co : Coroutine} (hco : s.coroutines p = some co) :
    0 ≤ co.id ∧ co.id < kCoroNum := by
  have hentry := h.table.entry p co.id (s.idOf_eq hco)
  have hlast := h.table.last
  omega

theorem corosAt_id (h : Inv s) {p : CoPtr} {co : Coroutine} (hco : s.coroutines p = some co) :
    s.corosAt co.id = .ok p := by
  rw [Sched.corosAt, if_pos (h.id_range hco), (h.table.entry p co.id (s.idOf_eq hco)).2.2]

theorem ne_zero (h : Inv s) {p : CoPtr} {co : Coroutine} (hco : s.coroutines p = some co) :
    p ≠ 0 :=
  (h.table.pos_of_live (s.idOf_eq hco)).ne'

/-- While `main_` can be switched to, `running_` names the coroutine that has control. -/
theorem running_eq (h : Inv s) {p : CoPtr} {r : Resumer} {co : Coroutine}
    (hctl : s.control = .coroutine p) (hmain : s.main = some r)
    (hco : s.coroutines p = some co) : s.running = co.id := by
  have hid := (h.placed.saved p r hctl hmain).1
  rw [s.idOf_eq hco] at hid
  exact (Option.some.inj hid).symm

theorem running_ne (h : Inv s) {p : CoPtr} {r : Resumer} (hctl : s.control = .coroutine p)
    (hmain : s.main = some r) : s.running ≠ -1 := by
  obtain ⟨co, hco, -⟩ := h.placed.executing p hctl
  have hrange := h.id_range hco
  rw [h.running_eq hctl hmain hco]
  omega

/-- User code is that of `main`, or of the coroutine that has control. -/
theorem user_cases (h : Inv s) (huser : s.inUser = true) :
    s.control = .main ∧ s.main = none ∨
      ∃ p co, s.control = .coroutine p ∧ s.coroutines p = some co ∧ co.status = .running ∧
        co.pc = .user := by
  cases hctl : s.control with
  | main => exact Or.inl ⟨rfl, h.placed.main hctl⟩
  | run i => simp [Sched.inUser, hctl] at huser
  | coroutine p =>
      obtain ⟨co, hco, hexec⟩ := h.placed.executing p hctl
      refine Or.inr ⟨p, co, rfl, hco, hexec.1, ?_⟩
      simpa [Sched.inUser, hctl, hco] using huser

/-- In user code `running_` names no coroutine or a live one. -/
theorem named (h : Inv s) (huser : s.inUser = true) (hrunning : s.running ≠ -1) :
    ∃ p co, s.coroutines p = some co ∧ s.corosAt s.running = .ok p := by
  cases hmain : s.main with
  | none =>
      obtain ⟨p, co, call, hco, -, hid⟩ := (h.placed.stray hmain).resolve_left hrunning
      exact ⟨p, co, hco, hid ▸ h.corosAt_id hco⟩
  | some r =>
      rcases h.user_cases huser with ⟨-, hnone⟩ | ⟨p, co, hctl, hco, -, -⟩
      · cases hmain.symm.trans hnone
      · exact ⟨p, co, hco, h.running_eq hctl hmain hco ▸ h.corosAt_id hco⟩

theorem perform_spawn (h : Inv s) {arg fn : Nat} (huser : s.inUser = true) :
    Effect s (.spawn arg fn) ((s.spawn arg fn).map Prod.fst) := by
  obtain ⟨id, -, -, hid, -⟩ := h.table.allocate
  have hnonneg : ¬ (id : Int) < 0 := by omega
  by_cases hlt : id < kCoroNum
  · have hspawn : (s.spawn arg fn).map Prod.fst = .ok (s.spawned arg fn id) := by
      simp [Sched.spawn, hid, hnonneg, hlt, Except.map, Sched.spawned, Sched.setCo, Sched.emit]
    rw [hspawn]
    exact .spawn huser hid hlt
  · have hspawn : (s.spawn arg fn).map Prod.fst = .error (.coros id) := by
      simp [Sched.spawn, hid, hnonneg, hlt, Except.map]
    rw [hspawn]
    exact .overflow huser hid (Nat.le_of_not_lt hlt)

theorem corosAt_none (hrunning : s.running = -1) :
    s.corosAt s.running = .error (.coros (-1)) := by
  rw [hrunning]
  rfl

theorem perform_yield (h : Inv s) (huser : s.inUser = true) : Effect s .yield s.yield := by
  by_cases hrunning : s.running = -1
  · have hyield : s.yield = .error (.coros (-1)) := by
      simp [Sched.yield, corosAt_none hrunning, bind, Except.bind]
    rw [hyield]
    exact .yieldNone huser hrunning
  · cases hmain : s.main with
    | none =>
        obtain ⟨p, co, hco, hat⟩ := h.named huser hrunning
        have hyield : s.yield = .error .context := by
          simp [Sched.yield, hat, bind, Except.bind, Sched.deref, hco, Sched.toMain, Sched.setCo,
            Sched.emit, hmain]
        rw [hyield]
        exact .yieldLost huser hrunning hmain
    | some r =>
        rcases h.user_cases huser with ⟨-, hnone⟩ | ⟨p, co, hctl, hco, -, hpc⟩
        · cases hmain.symm.trans hnone
        · have hat : s.corosAt s.running = .ok p :=
            h.running_eq hctl hmain hco ▸ h.corosAt_id hco
          have hyield : s.yield = .ok
              { s.left p { co with status := .suspend, pc := .yielded } r with
                running := -1 } := by
            simp [Sched.yield, hat, bind, Except.bind, Sched.deref, hco, Sched.toMain,
              Sched.setCo, Sched.emit, hmain, Sched.left]
          rw [hyield]
          exact .yield hctl hmain hco hpc

theorem perform_status (h : Inv s) (huser : s.inUser = true) (id : Int) :
    Effect s (.status id) ((s.status id).map fun _ => s) := by
  by_cases hid : 0 ≤ id ∧ id < kCoroNum
  · have hstatus : (s.status id).map (fun _ => s) = .ok s := by
      rw [Sched.status, Sched.corosAt, if_pos hid]
      by_cases hp : s.coros id.toNat = 0
      · simp [bind, Except.bind, pure, Except.pure, hp, Except.map]
      · obtain ⟨co, hco, -⟩ := Option.map_eq_some_iff.mp (h.table.made _ hp)
        simp [bind, Except.bind, pure, Except.pure, hp, Sched.deref, hco, Except.map]
    rw [hstatus]
    exact .status huser hid
  · have hstatus : (s.status id).map (fun _ => s) = .error (.coros id) := by
      simp [Sched.status, Sched.corosAt, hid, bind, Except.bind, Except.map]
    rw [hstatus]
    exact .statusOutside huser hid

end Inv

/-- The call that `Accept`, `Recv` or `Send` goes on with. -/
def IoNext.call : IoNext → IoCall
  | .wait call => call
  | .loop call => call
  | .back call _ => call

/-- The loop goes on with the same call, or the call returns what it has moved. -/
theorem IoCall.head_cases (call : IoCall) :
    call.head = .loop call ∨ call.head = .back call call.ret := by
  unfold IoCall.head
  split
  · exact Or.inl rfl
  · exact Or.inr rfl

theorem IoCall.head_call (call : IoCall) : call.head.call = call := by
  rcases call.head_cases with hhead | hhead <;> rw [hhead] <;> rfl

theorem IoCall.head_loop {call call' : IoCall} (h : call.head = .loop call') :
    call'.head = .loop call' := by
  rcases call.head_cases with hhead | hhead
  · obtain rfl := IoNext.loop.inj (hhead.symm.trans h)
    exact h
  · cases hhead.symm.trans h

/-- A turn changes the number of bytes and of retries only. -/
theorem IoCall.turn_call (call : IoCall) (ans : Answer) :
    ∃ ret retries, (call.turn ans).2.call = { call with ret := ret, retries := retries } := by
  cases ans with
  | again => exact ⟨_, _, rfl⟩
  | intr => exact ⟨_, _, call.head_call⟩
  | error => exact ⟨_, _, rfl⟩
  | done n =>
      unfold IoCall.turn
      dsimp only
      split
      · exact ⟨_, _, rfl⟩
      · split
        · exact ⟨_, _, rfl⟩
        · split
          · exact ⟨_, _, rfl⟩
          · exact ⟨_, _, IoCall.head_call _⟩
      · split
        · exact ⟨_, _, rfl⟩
        · split
          · exact ⟨_, _, rfl⟩
          · exact ⟨_, _, IoCall.head_call _⟩

/-- A turn goes back into the loop through its head only. -/
theorem IoCall.turn_loop (call : IoCall) (ans : Answer) {call' : IoCall}
    (h : (call.turn ans).2 = .loop call') : call'.head = .loop call' := by
  cases ans with
  | again => cases h
  | intr => exact IoCall.head_loop h
  | error => cases h
  | done n =>
      unfold IoCall.turn at h
      dsimp only at h
      split at h
      · cases h
      all_goals
        split at h
        · cases h
        · dsimp only at h
          split at h
          · cases h
          · exact IoCall.head_loop h

namespace Sched

variable {s : Sched} {p : CoPtr} {r : Resumer} {co : Coroutine}

theorem ioGo_eq (hmain : s.main = some r) (hco : s.coroutines p = some co) {next : IoNext}
    (hnext : next.call.coro = p) : s.ioGo p co next = .ok (s.gone p r co next) := by
  cases next with
  | wait call =>
      have hcall : call.coro = p := hnext
      simp [ioGo, swap, hcall, deref, hco, bind, Except.bind, toMain, setCo, emit, hmain, gone,
        left]
  | loop call => rfl
  | back call value => rfl

/-- `CheckNetwork` comes to its end when no event is about a deleted `Socket`. -/
theorem pushEvents_ok (ready : List (SockPtr × BitVec 32))
    (hlost : ready.filterMap (fun e => s.lost e.1 e.2) = []) :
    s.pushEvents ready = .ok
      { s with
        active := s.active ++ ready.filterMap fun e => s.pushOf e.1 e.2
        log := s.log ++ (ready.filterMap fun e => s.pushOf e.1 e.2).map .pushed } := by
  induction ready generalizing s with
  | nil => simp [pushEvents]
  | cons e rest ih =>
      obtain ⟨k, events⟩ := e
      rw [List.filterMap_eq_nil_iff, List.forall_mem_cons, ← List.filterMap_eq_nil_iff] at hlost
      obtain ⟨hk, hrest⟩ := hlost
      by_cases hbit : events &&& networkMask = 0
      · rw [pushEvents, if_neg (not_not.mpr hbit), ih hrest,
          List.filterMap_cons_none (by simp [pushOf, hbit])]
      · obtain ⟨sock, hsock⟩ : ∃ sock, s.sockets k = some sock := by
          rw [← Option.isSome_iff_exists]
          by_contra hnone
          rw [lost, if_neg (not_or.mpr ⟨hbit, hnone⟩)] at hk
          cases hk
        let pushed : Sched := { s with active := s.active ++ [sock.coro] }.emit [.pushed sock.coro]
        have hderef : s.derefSock k = .ok sock := by simp [derefSock, hsock]
        have hpush : s.pushOf k events = some sock.coro := by
          rw [pushOf, if_neg hbit, hsock]
          rfl
        have hcons : ((k, events) :: rest).filterMap (fun e => s.pushOf e.1 e.2) =
            sock.coro :: rest.filterMap fun e => s.pushOf e.1 e.2 :=
          List.filterMap_cons_some hpush
        rw [pushEvents, if_pos hbit, hderef, hcons]
        change pushed.pushEvents rest = _
        rw [ih (s := pushed) hrest]
        simp [pushed, emit, pushOf]

/-- `CheckNetwork` fails at the first event that is about a deleted `Socket`. -/
theorem pushEvents_error (ready : List (SockPtr × BitVec 32)) {k : SockPtr} {ks : List SockPtr}
    (hlost : ready.filterMap (fun e => s.lost e.1 e.2) = k :: ks) :
    s.pushEvents ready = .error (.socket k) := by
  induction ready generalizing s with
  | nil => cases hlost
  | cons e rest ih =>
      obtain ⟨k', events⟩ := e
      by_cases hbit : events &&& networkMask = 0
      · rw [List.filterMap_cons_none (by simp [lost, hbit])] at hlost
        rw [pushEvents, if_neg (not_not.mpr hbit), ih hlost]
      · cases hsock : s.sockets k' with
        | none =>
            have hk : s.lost k' events = some k' := if_neg (by simpa [hsock] using hbit)
            have hcons : ((k', events) :: rest).filterMap (fun e => s.lost e.1 e.2) =
                k' :: rest.filterMap fun e => s.lost e.1 e.2 := List.filterMap_cons_some hk
            obtain ⟨rfl, -⟩ := List.cons.inj (hcons.symm.trans hlost)
            have hderef : s.derefSock k' = .error (.socket k') := by simp [derefSock, hsock]
            rw [pushEvents, if_pos hbit, hderef]
            rfl
        | some sock =>
            rw [List.filterMap_cons_none (by simp [lost, hsock])] at hlost
            have hderef : s.derefSock k' = .ok sock := by simp [derefSock, hsock]
            rw [pushEvents, if_pos hbit, hderef]
            exact ih hlost

end Sched

namespace Inv

variable {s : Sched}

/-- `Accept`, `Recv` or `Send` with a descriptor inside of `socks_`, when `running_` names a
coroutine. -/
theorem startIo_eq {coro : CoPtr} (hat : s.corosAt s.running = .ok coro) (kind : IoKind)
    {fd : Fd} (hfd : 0 ≤ fd ∧ fd < kCoroNum) (len : BitVec 64) (ctl : Option Errno) :
    s.startIo kind fd len ctl =
      if (s.epoll fd).isSome ∨ ctl.isSome then
        .ok ((s.equipped coro kind fd len).1.emit [.returned s.caller kind len (-1)])
      else (s.added coro kind fd len).swap
        { kind := kind, coro := coro, fd := fd, len := len, ret := 0, retries := 0 } := by
  let e := s.equipped coro kind fd len
  have hsame := s.equipped_same coro kind fd len
  have hcaller : e.1.caller = s.caller := by
    rw [Sched.caller, hsame.control]
    rfl
  rw [Sched.startIo, hat]
  simp only [bind, Except.bind, Sched.socksAt, if_pos hfd, pure, Except.pure]
  change (if (e.1.epoll fd).isSome ∨ ctl.isSome then
    Except.ok (e.1.emit [.returned e.1.caller kind len (-1)]) else _) = _
  rw [hsame.epoll, hcaller]
  rfl

theorem perform_io (h : Inv s) (huser : s.inUser = true) (kind : IoKind) (fd : Fd)
    (len : BitVec 64) (ctl : Option Errno) :
    Effect s (.io kind fd len ctl) (s.startIo kind fd len ctl) := by
  by_cases hrunning : s.running = -1
  · have hio : s.startIo kind fd len ctl = .error (.coros (-1)) := by
      simp [Sched.startIo, corosAt_none hrunning, bind, Except.bind]
    rw [hio]
    exact .ioNone huser hrunning
  obtain ⟨coro, cco, hcco, hat⟩ := h.named huser hrunning
  by_cases hfd : 0 ≤ fd ∧ fd < kCoroNum
  · have hsame := s.equipped_same coro kind fd len
    let added : Sched := s.added coro kind fd len
    let call : IoCall :=
      { kind := kind, coro := coro, fd := fd, len := len, ret := 0, retries := 0 }
    have hadded : added.coroutines coro = some cco := (congrFun hsame.coroutines coro).trans hcco
    rw [startIo_eq hat kind hfd]
    split
    · next hfail => exact .ioFailed huser hrunning hcco hfd hfail
    · next hnew =>
        rw [not_or, Option.not_isSome_iff_eq_none, Option.not_isSome_iff_eq_none] at hnew
        obtain ⟨hnew, rfl⟩ := hnew
        cases hmain : s.main with
        | none =>
            have hmain' : added.main = none := hsame.main.trans hmain
            have hswap : added.swap call = .error .context := by
              simp [Sched.swap, call, Sched.deref, hadded, bind, Except.bind, Sched.toMain,
                Sched.setCo, Sched.emit, hmain']
            rw [hswap]
            exact .ioLost huser hrunning hmain hfd hnew
        | some r =>
            rcases h.user_cases huser with ⟨-, hnone⟩ | ⟨p, co, hctl, hco, -, hpc⟩
            · cases hmain.symm.trans hnone
            · have hat' : s.corosAt s.running = .ok p :=
                h.running_eq hctl hmain hco ▸ h.corosAt_id hco
              obtain rfl : coro = p := Except.ok.inj (hat.symm.trans hat')
              obtain rfl : cco = co := Option.some.inj (hcco.symm.trans hco)
              have hwait : (IoNext.wait call).call.coro = coro := rfl
              have hgo : added.swap call = .ok (added.gone coro r cco (.wait call)) :=
                Sched.ioGo_eq (s := added) (hsame.main.trans hmain) hadded hwait
              rw [hgo]
              exact .ioWait hctl hmain hco hpc hfd hnew
  · have hio : s.startIo kind fd len ctl = .error (.socks fd) := by
      simp [Sched.startIo, hat, bind, Except.bind, Sched.socksAt, hfd]
    rw [hio]
    exact .ioOutside huser hrunning hfd

theorem perform_close (h : Inv s) (huser : s.inUser = true) (fd : Fd) (dup : Bool) :
    Effect s (.close fd dup) (s.close fd dup) := by
  by_cases hfd : 0 ≤ fd ∧ fd < kCoroNum
  · have hclose : s.close fd dup = .ok (s.closed fd dup) := by
      rw [Sched.close, Sched.socksAt, if_pos hfd]
      by_cases hk : s.socks fd.toNat = 0
      · -- Nothing is at the null pointer, and `socks_` keeps it.
        have hnull : Function.update s.sockets 0 none = s.sockets := by
          rw [Function.update_eq_self_iff]
          exact (h.nets.null).symm
        have hsame : Function.update s.socks fd.toNat 0 = s.socks := by
          rw [Function.update_eq_self_iff]
          exact hk.symm
        simp [bind, Except.bind, pure, Except.pure, hk, Sched.closed, hnull, hsame]
      · obtain ⟨sock, hsock, -⟩ := h.nets.socks _ hk
        simp [bind, Except.bind, pure, Except.pure, hk, Sched.derefSock, hsock, Sched.closed]
    rw [hclose]
    exact .close huser hfd
  · have hclose : s.close fd dup = .error (.socks fd) := by
      simp [Sched.close, Sched.socksAt, hfd, bind, Except.bind]
    rw [hclose]
    exact .closeOutside huser hfd

theorem perform_native (h : Inv s) {ans : Answer} {res : Except Fault Sched}
    (hp : s.perform (.native ans) = some res) : Effect s (.native ans) res := by
  simp only [Sched.perform, Sched.executing] at hp
  split at hp
  case h_1 p hctl =>
    obtain ⟨co, hco, -⟩ := h.placed.executing p hctl
    simp only [hco, Option.map_some, Option.bind_some] at hp
    split at hp
    case h_1 call hpc =>
      rw [Option.ite_none_right_eq_some] at hp
      obtain ⟨hfits, hres⟩ := hp
      obtain ⟨r, hmain⟩ := Option.isSome_iff_exists.mp (h.placed.native p co call hco hpc).2
      obtain ⟨ret, retries, hcall⟩ := call.turn_call ans
      have hcoro : call.coro = p := (h.placed.own p co hco).call call (by rw [hpc]; rfl)
      have hnext : (call.turn ans).2.call.coro = p := by
        rw [hcall]
        exact hcoro
      have hgo := Sched.ioGo_eq (s := s.emit (call.turn ans).1) hmain hco hnext
      rw [hgo] at hres
      obtain rfl := Option.some.inj hres
      exact .turn hctl hmain hco hpc hfits
    case h_2 => cases hp
  case h_2 => cases hp

theorem perform_ret (h : Inv s) {res : Except Fault Sched} (hp : s.perform .ret = some res) :
    Effect s .ret res := by
  simp only [Sched.perform, Sched.executing] at hp
  split at hp
  case h_1 p hctl =>
    obtain ⟨co, hco, -⟩ := h.placed.executing p hctl
    simp only [hco, Option.map_some, Option.bind_some] at hp
    split at hp
    case h_1 id coro hpc hlocals =>
      have hown := (h.placed.own p co hco).locals (by rw [hpc]; decide)
      obtain ⟨rfl, rfl⟩ : id = co.id ∧ coro = p := by
        rw [hown, Option.some.injEq, Prod.mk.injEq] at hlocals
        exact ⟨hlocals.1.symm, hlocals.2.symm⟩
      have hrange : 0 ≤ co.id ∧ co.id < kCoroNum := h.id_range hco
      obtain rfl := Option.some.inj hp
      cases hmain : s.main with
      | none =>
          have hfinish : s.finish co.id coro = .error .context := by
            simp [Sched.finish, bind, Except.bind, Sched.deref, hco, Sched.corosAt, hrange,
              Sched.toMain, Sched.setCo, Sched.emit, hmain]
          rw [hfinish]
          exact .retLost hctl (by simp [Sched.inUser, hctl, hco, hpc]) hmain
      | some r =>
          have hfinish : s.finish co.id coro = .ok (s.ended coro co r) := by
            simp [Sched.finish, bind, Except.bind, Sched.deref, hco, Sched.corosAt, hrange,
              Sched.toMain, Sched.setCo, Sched.emit, hmain, Sched.ended]
          rw [hfinish]
          exact .ret hctl hmain hco hpc
    case h_2 => cases hp
  case h_2 => cases hp

/-- What `Resume` does with a live coroutine. -/
theorem resume_effect (h : Inv s) {a : Act} {p : CoPtr} {r : Resumer} {os : List Obs}
    {co : Coroutine} (hres : Resumes s a p r os) (hco : s.coroutines p = some co) :
    Effect s a ((s.emit os).resume co.id r) := by
  let u : Sched := s.emit os
  have hat : u.corosAt co.id = .ok p := h.corosAt_id hco
  have hderef : u.deref p = .ok co := by
    change s.deref p = .ok co
    simp [Sched.deref, hco]
  have hne := h.ne_zero hco
  rcases h.placed.places p co hco with hrest | hexec
  · have hready : co.status = .ready ∨ co.status = .suspend := hrest.imp And.left And.left
    have hself : (u.resumed p co r).coroutines p = some { co with status := .running } :=
      Function.update_self ..
    have hrunning : (u.resumed p co r).corosAt (u.resumed p co r).running = .ok p := hat
    have hresume : u.resume co.id r = (u.resumed p co r).switchIn p := by
      simp [Sched.resume, hat, bind, Except.bind, hne, hderef, hready, Sched.setCo, Sched.emit,
        Sched.resumed]
    rw [hresume]
    rcases hrest with ⟨-, hpc⟩ | ⟨-, hpc | ⟨call, hpc⟩⟩
    · have hswitch : (u.resumed p co r).switchIn p = .ok (((u.resumed p co r).setCo p (some
          { co with status := .running, locals := some (co.id, p), pc := .user })).emit
            [.called p co.fn co.arg]) := by
        simp only [Sched.switchIn, Sched.mainfunc, bind, Except.bind, Sched.deref, hself,
          hrunning, hpc, pure, Except.pure]
        rfl
      rw [hswitch]
      exact .enter hres hco hpc
    · have hswitch : (u.resumed p co r).switchIn p = .ok ((u.resumed p co r).setCo p (some
          { co with status := .running, pc := .user })) := by
        simp only [Sched.switchIn, bind, Except.bind, Sched.deref, hself, hpc, pure,
          Except.pure]
      rw [hswitch]
      exact .rejoin hres hco hpc
    · have hcoro : call.head.call.coro = p := by
        rw [call.head_call]
        exact (h.placed.own p co hco).call call (by rw [hpc]; rfl)
      let unregistered : Sched :=
        { u.resumed p co r with epoll := Function.update s.epoll call.fd none }
      have hswitch : (u.resumed p co r).switchIn p =
          unregistered.ioGo p { co with status := .running } call.head := by
        simp only [Sched.switchIn, bind, Except.bind, Sched.deref, hself, hpc]
        rfl
      have hgo : unregistered.ioGo p { co with status := .running } call.head =
          .ok (unregistered.gone p r { co with status := .running } call.head) :=
        Sched.ioGo_eq (s := unregistered) rfl hself hcoro
      rw [hswitch, hgo]
      exact .wake hres hco hpc
  · have hbusy : ¬ (co.status = .ready ∨ co.status = .suspend) := by simp [hexec.1]
    have hresume : u.resume co.id r = .ok { u with control := r.control } := by
      simp [Sched.resume, hat, bind, Except.bind, hne, hderef, hbusy, pure, Except.pure]
    rw [hresume]
    exact .idle hres hco hexec

theorem perform_next (h : Inv s) {res : Except Fault Sched} (hp : s.perform .next = some res) :
    Effect s .next res := by
  simp only [Sched.perform] at hp
  split at hp
  case h_1 i hctl =>
    obtain ⟨p, hat, hres⟩ := Option.map_eq_some_iff.mp hp
    subst hres
    cases hco : s.coroutines p with
    | none =>
        have hnext : (s.deref p).bind (fun co => (s.emit [.visited p]).resume co.id (.run i)) =
            .error (.coroutine p) := by
          simp [Sched.deref, hco, Except.bind]
        rw [hnext]
        exact .dangling hctl hat hco
    | some co =>
        have hnext : (s.deref p).bind (fun co => (s.emit [.visited p]).resume co.id (.run i)) =
            (s.emit [.visited p]).resume co.id (.run i) := by
          simp [Sched.deref, hco, Except.bind]
        rw [hnext]
        exact h.resume_effect (.run hctl hat) hco
  case h_2 => cases hp

theorem user_control (huser : s.inUser = true) : s.user.control = s.control := by
  cases hctl : s.control with
  | main => simp [Sched.user, hctl, Resumer.control]
  | run i => simp [Sched.inUser, hctl] at huser
  | coroutine p => simp [Sched.user, hctl, Resumer.control]

theorem perform_resume (h : Inv s) (huser : s.inUser = true) (id : Int) :
    Effect s (.resume id) (s.resume id s.user) := by
  by_cases hid : 0 ≤ id ∧ id < kCoroNum
  · have hat : s.corosAt id = .ok (s.coros id.toNat) := if_pos hid
    by_cases hp : s.coros id.toNat = 0
    · rw [hp] at hat
      have hresume : s.resume id s.user = .ok s := by
        simp [Sched.resume, hat, bind, Except.bind, pure, Except.pure, user_control huser]
      rw [hresume]
      exact .resumeNull huser hat
    · obtain ⟨co, hco, hcoid⟩ := Option.map_eq_some_iff.mp (h.table.made _ hp)
      have hid' : co.id = id := by omega
      have heffect := h.resume_effect (.user huser hat) hco
      rw [hid'] at heffect
      simpa [Sched.emit] using heffect
  · have hresume : s.resume id s.user = .error (.coros id) := by
      simp [Sched.resume, Sched.corosAt, hid, bind, Except.bind]
    rw [hresume]
    exact .resumeOutside huser hid

/-- The events of a step that are about deleted `Socket` objects. -/
theorem strays_eq (h : Inv s) {events : List (Watch × BitVec 32)}
    (hset : ∀ e ∈ events, (s.watched e.1).isSome) :
    (events.filterMap fun e => (s.watched e.1).map fun k => (k, e.2)).filterMap
        (fun e => s.lost e.1 e.2) = events.filterMap strayOf := by
  rw [List.filterMap_filterMap]
  apply List.filterMap_congr
  rintro ⟨w, bits⟩ he
  have hw := hset _ he
  cases w with
  | fd fd =>
      obtain ⟨k, hk⟩ := Option.isSome_iff_exists.mp hw
      obtain ⟨reg, hreg, rfl⟩ := Option.map_eq_some_iff.mp hk
      obtain ⟨-, -, hsocks, hne, -⟩ := h.nets.registered fd reg hreg
      obtain ⟨sock, hsock, -⟩ := h.nets.socks fd.toNat (by rw [hsocks]; exact hne)
      rw [hsocks] at hsock
      simp [Sched.watched, hreg, Sched.lost, hsock, strayOf]
  | orphan k =>
      have hk : k ∈ s.orphans := by
        by_contra hk
        simp [Sched.watched, hk] at hw
      simp [Sched.watched, hk, Sched.lost, (h.nets.orphans k hk).2, strayOf]

theorem perform_network (h : Inv s) {events : List (Watch × BitVec 32)}
    {res : Except Fault Sched} (hp : s.perform (.network events) = some res) :
    Effect s (.network events) res := by
  rw [Sched.perform, Option.ite_none_right_eq_some] at hp
  obtain ⟨⟨hctl, hset⟩, hres⟩ := hp
  obtain rfl := Option.some.inj hres
  let waited : Sched := { s with control := .run 0 }.emit [.waited]
  have hlost := h.strays_eq hset
  rw [Sched.checkNetwork]
  change Effect s (.network events) (waited.pushEvents _)
  cases hstray : events.filterMap strayOf with
  | nil =>
      rw [waited.pushEvents_ok _ (hlost.trans hstray)]
      have hpushes : s.pushes events = (events.filterMap fun e =>
          (s.watched e.1).map fun k => (k, e.2)).filterMap fun e => s.pushOf e.1 e.2 := by
        rw [List.filterMap_filterMap, Sched.pushes]
        congr 1
        funext e
        cases s.watched e.1 <;> rfl
      have hnetwork := Effect.network hctl hset hstray
      rw [Sched.networked, hpushes] at hnetwork
      simpa [waited, Sched.emit, Sched.pushOf] using hnetwork
  | cons k rest =>
      rw [waited.pushEvents_error _ (hlost.trans hstray)]
      exact .stray hctl hset hstray

/-- Every step has one of the closed forms. -/
theorem effect (h : Inv s) {a : Act} {res : Except Fault Sched} (hp : s.perform a = some res) :
    Effect s a res := by
  cases a with
  | native ans => exact h.perform_native hp
  | ret => exact h.perform_ret hp
  | next => exact h.perform_next hp
  | network events => exact h.perform_network hp
  | spawn arg fn =>
      obtain ⟨huser, hres⟩ := Option.ite_none_right_eq_some.mp hp
      exact Option.some.inj hres ▸ h.perform_spawn huser
  | yield =>
      obtain ⟨huser, hres⟩ := Option.ite_none_right_eq_some.mp hp
      exact Option.some.inj hres ▸ h.perform_yield huser
  | status id =>
      obtain ⟨huser, hres⟩ := Option.ite_none_right_eq_some.mp hp
      exact Option.some.inj hres ▸ h.perform_status huser id
  | resume id =>
      obtain ⟨huser, hres⟩ := Option.ite_none_right_eq_some.mp hp
      exact Option.some.inj hres ▸ h.perform_resume huser id
  | io kind fd len ctl =>
      obtain ⟨huser, hres⟩ := Option.ite_none_right_eq_some.mp hp
      exact Option.some.inj hres ▸ h.perform_io huser kind fd len ctl
  | close fd dup =>
      obtain ⟨huser, hres⟩ := Option.ite_none_right_eq_some.mp hp
      exact Option.some.inj hres ▸ h.perform_close huser fd dup
  | run =>
      obtain ⟨huser, hres⟩ := Option.ite_none_right_eq_some.mp hp
      exact Option.some.inj hres ▸ .run huser
  | forget k =>
      obtain ⟨hk, hres⟩ := Option.ite_none_right_eq_some.mp hp
      exact Option.some.inj hres ▸ .forget hk

end Inv

end Old

end Libcr
